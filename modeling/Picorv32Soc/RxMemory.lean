import Picorv32Soc.RxVerdict

/-!
# What a reception leaves in memory

The words of a frame that are routed correctly are in their place when the slot is published; word 0,
and the words that cross into another bank, are not (`Frame.misrouted`). The bytes strobed stay inside
the buffer exactly when the frame fits into it and does not leave the bank it starts in.
-/

namespace Picorv32Soc
open Bits

namespace Frame
variable {f : Frame} {a : BitVec 32}

/-- Word `i` of a frame received at `a` does not reach its place: word 0 has no strobe, and a word whose
bank is not that of the word two before it goes to the wrong bank. -/
def misrouted (a : BitVec 32) (i : Nat) : Bool :=
  i == 0 || bankOf (a + BitVec.ofNat 32 (4 * i)) != bankOf (a + BitVec.ofNat 32 (4 * (i - 2)))

theorem toNat_add_ofNat {m : Nat} (h : a.toNat + m < 2 ^ 32) : (a + BitVec.ofNat 32 m).toNat = a.toNat + m := by
  rw [BitVec.toNat_add, BitVec.toNat_ofNat]; omega

theorem lands_iff {i : Nat} {x : BitVec 32} (hi : i < f.beats) (hw : a.toNat + 4 * i < 2 ^ 32) :
    f.lands a i x = true ↔ (a.toNat + 4 * (i - 2)) / 16384 % 4 = x.toNat / 16384 % 4 ∧
      4 * i + x.toNat % 4 < f.nbytes ∧ (a.toNat + 4 * i) / 4 % 4096 = x.toNat / 4 % 4096 := by
  rw [lands, Bool.and_eq_true, Bool.and_eq_true, beq_iff_eq, beq_iff_eq, bankOf_eq_iff, offsetOf_eq_iff,
    toNat_add_ofNat hw, toNat_add_ofNat (by omega), laneOf_toNat, beat_tkeep_getLsbD f hi (Nat.mod_lt _ (by omega)),
    decide_eq_true_iff, and_assoc]

/-- The address in the heap where word `i` of a frame received at `a` lands: the offset is its own, the
bank is that of the word two before it. -/
def place (a : BitVec 32) (i : Nat) : Nat :=
  0x10000 + (a.toNat + 4 * (i - 2)) / 16384 % 4 * 16384 + (a.toNat + 4 * i) / 4 % 4096 * 4

theorem place_lt (i : Nat) : 0x10000 ≤ place a i ∧ place a i < 0x20000 := by
  unfold place; omega

theorem toNat_place (i : Nat) {r : Nat} (hr : r < 4) :
    (BitVec.ofNat 32 (place a i + r)).toNat = place a i + r := by
  have := place_lt (a := a) i
  rw [BitVec.toNat_ofNat, Nat.mod_eq_of_lt (by omega)]

theorem place_decoded (i : Nat) {r : Nat} (hr : r < 4) :
    (place a i + r) / 16384 % 4 = (a.toNat + 4 * (i - 2)) / 16384 % 4 ∧
      (place a i + r) / 4 % 4096 = (a.toNat + 4 * i) / 4 % 4096 ∧ (place a i + r) % 4 = r := by
  have hbank := Nat.mod_lt ((a.toNat + 4 * (i - 2)) / 16384) (show 0 < 4 by omega)
  have hword := Nat.mod_lt ((a.toNat + 4 * i) / 4) (show 0 < 4096 by omega)
  unfold place
  omega

theorem lands_place {i r : Nat} (hi : i < f.beats) (hw : a.toNat + 4 * i < 2 ^ 32) (hr : r < 4)
    (hlen : 4 * i + r < f.nbytes) : f.lands a i (BitVec.ofNat 32 (place a i + r)) = true := by
  obtain ⟨hbank, hword, hlane⟩ := place_decoded (a := a) i hr
  rw [lands_iff hi hw, toNat_place i hr, hbank, hword, hlane]
  exact ⟨rfl, hlen, rfl⟩

theorem eq_place_of_lands {i : Nat} {x : BitVec 32} (hi : i < f.beats) (hw : a.toNat + 4 * i < 2 ^ 32)
    (hx : 0x10000 ≤ x.toNat ∧ x.toNat < 0x20000) (h : f.lands a i x = true) :
    x.toNat = place a i + x.toNat % 4 := by
  obtain ⟨hbank, -, hword⟩ := (lands_iff hi hw).1 h
  rw [place, hbank, hword]
  omega

/-- An address in the heap from its bank, its offset and its lane. -/
theorem heap_parts {x : Nat} (hlo : 0x10000 ≤ x) (hhi : x < 0x20000) :
    0x10000 + x / 16384 % 4 * 16384 + x / 4 % 4096 * 4 + x % 4 = x := by
  omega

/-- A word lands in its place or, in another bank than its own, one bank below it. -/
theorem place_eq {i : Nat} (ha : a.toNat % 4 = 0) (hlo : 0x10000 ≤ a.toNat) (hhi : a.toNat + 4 * i < 0x20000) :
    (a.toNat + 4 * i) / 16384 = (a.toNat + 4 * (i - 2)) / 16384 ∧ place a i = a.toNat + 4 * i ∨
      (a.toNat + 4 * i) / 16384 = (a.toNat + 4 * (i - 2)) / 16384 + 1 ∧ place a i + 16384 = a.toNat + 4 * i := by
  have hbank : (a.toNat + 4 * i) / 16384 = (a.toNat + 4 * (i - 2)) / 16384 ∨
      (a.toNat + 4 * i) / 16384 = (a.toNat + 4 * (i - 2)) / 16384 + 1 := by omega
  have hparts := heap_parts (x := a.toNat + 4 * i) (by omega) hhi
  rw [show (a.toNat + 4 * i) % 4 = 0 by omega, Nat.add_zero] at hparts
  rcases hbank with hsame | hnext
  · refine Or.inl ⟨hsame, ?_⟩
    rw [place, ← hsame, hparts]
  · have hmod : (a.toNat + 4 * i) / 16384 % 4 = (a.toNat + 4 * (i - 2)) / 16384 % 4 + 1 := by omega
    rw [hmod] at hparts
    refine Or.inr ⟨hnext, ?_⟩
    rw [place]; omega

/-- A frame that is too long for the buffer, or whose last word is in another bank, has a word that lands
outside the buffer. -/
theorem fits_of_place (hA : a.toNat % 4 = 0) (hlen : f.nbytes ≤ 4096)
    (hin : ∀ i, 1 ≤ i → i < f.beats → a.toNat ≤ place a i ∧ place a i < a.toNat + 1700) :
    f.nbytes ≤ 1700 ∧ a.toNat / 16384 % 4 = (a.toNat + 4 * (f.beats - 1)) / 16384 % 4 := by
  have hbeats := f.beats_eq
  have hfit : f.nbytes ≤ 1700 := by
    by_contra hbig
    have := hin 425 (by omega) (by omega)
    unfold place at this
    omega
  refine ⟨hfit, ?_⟩
  by_contra hbank
  -- the first word behind the end of the bank
  have := hin ((a.toNat / 16384 * 16384 + 16384 - a.toNat) / 4) (by omega) (by omega)
  unfold place at this
  omega

/-- Word `i` of a frame received at `a` lands in a bank that is not its own. -/
def strays (a : BitVec 32) (i : Nat) : Prop :=
  1 ≤ i ∧ bankOf (a + BitVec.ofNat 32 (4 * i)) ≠ bankOf (a + BitVec.ofNat 32 (4 * (i - 2)))

theorem strays_iff {i : Nat} (hw : a.toNat + 4 * i < 2 ^ 32) :
    strays a i ↔ 1 ≤ i ∧ (a.toNat + 4 * i) / 16384 % 4 ≠ (a.toNat + 4 * (i - 2)) / 16384 % 4 := by
  rw [strays, Ne, bankOf_eq_iff, toNat_add_ofNat hw, toNat_add_ofNat (by omega)]

/-- No two words of a frame land on the same byte. -/
theorem lands_unique {i i' : Nat} {x : BitVec 32} (hw : a.toNat + f.nbytes < 2 ^ 32) (hn : f.nbytes ≤ 16384)
    (hi : i < f.beats) (hi' : i' < f.beats) (h : f.lands a i x = true) (h' : f.lands a i' x = true) : i = i' := by
  have hbeats := f.beats_eq
  -- the words of a bank have different offsets
  have hword : (a.toNat + 4 * i) / 4 % 4096 = (a.toNat + 4 * i') / 4 % 4096 :=
    ((lands_iff hi (by omega)).1 h).2.2.trans ((lands_iff hi' (by omega)).1 h').2.2.symm
  omega

theorem landed_eq_of_lands {i m : Nat} {x : BitVec 32} (hw : a.toNat + f.nbytes < 2 ^ 32) (hn : f.nbytes ≤ 16384)
    (h1 : 1 ≤ i) (hi : i ≤ m) (hm : m < f.beats) (h : f.lands a i x = true) (mem : BitVec 32 → BitVec 8) :
    f.landed a mem x m = f.byte (4 * i + x.toNat % 4) := by
  rw [landed_of_lands hi h1 h fun j hj hjm => ?_]
  · have hlane : laneOf x = BitVec.ofNat 2 (x.toNat % 4) := by
      apply BitVec.eq_of_toNat_eq
      rw [laneOf_toNat, BitVec.toNat_ofNat]; omega
    rw [hlane, byte, show (4 * i + x.toNat % 4) / 4 = i by omega, show (4 * i + x.toNat % 4) % 4 = x.toNat % 4 by omega]
  · by_contra hl
    have := lands_unique hw hn (by omega) (by omega) h (Bool.not_eq_false _ ▸ hl)
    omega

/-- A byte of the heap outside the buffer on which a word lands: the word strays. -/
theorem strays_of_lands {i : Nat} {x : BitVec 32} (ha : a.toNat % 4 = 0)
    (hheap : 0x10000 ≤ a.toNat ∧ a.toNat + f.nbytes ≤ 0x20000) (hx : 0x10000 ≤ x.toNat ∧ x.toNat < 0x20000)
    (hout : ¬ (a.toNat ≤ x.toNat ∧ x.toNat < a.toNat + f.nbytes)) (h1 : 1 ≤ i) (hi : i < f.beats)
    (h : f.lands a i x = true) : strays a i ∧ x.toNat = place a i + x.toNat % 4 := by
  have hbeats := f.beats_eq
  have hplace := eq_place_of_lands hi (by omega) hx h
  have hlen := ((lands_iff hi (by omega)).1 h).2.1
  refine ⟨?_, hplace⟩
  rcases place_eq (i := i) ha hheap.1 (by omega) with ⟨-, hp⟩ | ⟨hbank, -⟩
  · exact absurd ⟨by omega, by omega⟩ hout
  · rw [strays_iff (by omega), hbank]
    exact ⟨h1, by omega⟩

/-- Where a byte of a word that strays lands: in the heap and outside the buffer. -/
theorem strays.outside {j : Nat} (hs : strays a (j / 4)) (ha : a.toNat % 4 = 0)
    (hheap : 0x10000 ≤ a.toNat ∧ a.toNat + f.nbytes ≤ 0x20000) (hn : f.nbytes ≤ 8192) (hj : j < f.nbytes) :
    ∃ x : BitVec 32, x = BitVec.ofNat 32 (place a (j / 4) + j % 4) ∧ 0x10000 ≤ x.toNat ∧ x.toNat < 0x20000 ∧
      ¬ (a.toNat ≤ x.toNat ∧ x.toNat < a.toNat + f.nbytes) ∧ f.lands a (j / 4) x = true ∧ x.toNat % 4 = j % 4 := by
  have hbeats := f.beats_eq
  rw [strays_iff (by omega)] at hs
  have hp := place_lt (a := a) (j / 4)
  have hlane : j % 4 < 4 := Nat.mod_lt _ (by omega)
  have hdec := place_decoded (a := a) (j / 4) hlane
  refine ⟨_, rfl, ?_⟩
  rw [toNat_place _ hlane]
  refine ⟨by omega, by omega, ?_, lands_place (by omega) (by omega) hlane (by omega), hdec.2.2⟩
  rcases place_eq (i := j / 4) ha hheap.1 (by omega) with ⟨hbank, -⟩ | ⟨-, hp⟩
  · exact absurd (by rw [hbank]) hs.2
  · omega

theorem landed_buffer (ha : a.toNat % 4 = 0) (hw : a.toNat + f.nbytes < 2 ^ 32) (hn : f.nbytes ≤ 16384)
    (mem : BitVec 32 → BitVec 8) {j : Nat} (hj : j < f.nbytes) :
    f.landed a mem (a + BitVec.ofNat 32 j) (f.beats - 1) =
      if misrouted a (j / 4) then mem (a + BitVec.ofNat 32 j) else f.byte j := by
  have hx : (a + BitVec.ofNat 32 j).toNat = a.toNat + j := toNat_add_ofNat (by omega)
  have hbeats := f.beats_eq
  have hlands : ∀ i, 1 ≤ i → i ≤ f.beats - 1 →
      (f.lands a i (a + BitVec.ofNat 32 j) = true ↔ i = j / 4 ∧ misrouted a i = false) := by
    intro i h1 hi
    rw [lands_iff (by omega) (by omega), hx, misrouted, Bool.or_eq_false_iff, beq_eq_false_iff_ne, bne_eq_false_iff_eq,
      bankOf_eq_iff, toNat_add_ofNat (by omega), toNat_add_ofNat (by omega)]
    have hbank : (a.toNat + 4 * (j / 4)) / 16384 = (a.toNat + j) / 16384 := by omega
    constructor
    · rintro ⟨hb, -, hword⟩
      obtain rfl : i = j / 4 := by omega
      exact ⟨rfl, by omega, by rw [hbank]; exact hb.symm⟩
    · rintro ⟨rfl, -, hb⟩
      exact ⟨by rw [← hbank]; exact hb.symm, by omega, by omega⟩
  split_ifs with hm
  · refine landed_of_not_lands fun i h1 hi => ?_
    rw [← Bool.not_eq_true, hlands i h1 hi]
    rintro ⟨rfl, hmi⟩
    rw [hm] at hmi; cases hmi
  · rw [Bool.not_eq_true] at hm
    have h1 : 1 ≤ j / 4 := by
      by_contra h0
      rw [show j / 4 = 0 by omega] at hm
      cases hm
    rw [landed_eq_of_lands hw hn h1 (by omega) (by omega) ((hlands _ h1 (by omega)).2 ⟨rfl, hm⟩), hx,
      show 4 * (j / 4) + (a.toNat + j) % 4 = j by omega]

end Frame

namespace Heap
variable {h : Heap} {i : HeapIn} {f : Frame} {a : BitVec 32} {inp : Nat → HeapIn}

/-! ### Publication -/

namespace Granted

theorem published (g : Granted f a h) (hthree : 3 ≤ f.beats) (hlen : f.nbytes < 2 ^ 32)
    (hacc : Dmac.keepFrame f.dstMac = true)
    (hclr : ∀ k, k < f.beats + 5 →
      (run inp h k).dmac.regs.rxBdClr.getLsbD h.dmac.ring.rxBdIdx.toNat = false) :
    (run inp h (f.beats + 5)).dmac.ring.rxBdSta.getLsbD h.dmac.ring.rxBdIdx.toNat = true := by
  have htwo : 2 ≤ f.beats := by omega
  have hpub := (g.publishes inp hthree hlen hacc fun k hk => hclr k (by omega)).1
  -- kept in the cycle that releases the bus
  show (run inp h (f.beats + 4)).dmac.stepRing.rxBdSta.getLsbD _ = true
  rw [Dmac.stepRing_rxBdSta, g.rxEnd htwo (Nat.le_refl _), decide_eq_false (by omega), hpub,
    hclr _ (by omega)]
  rfl

end Granted

/-! ### The contents of the buffer -/

theorem Granted.buffer_iff (g : Granted f a h) (halign : a.toNat % 4 = 0) (hheap : a.toNat + f.nbytes ≤ 0x20000)
    (hlen : 60 ≤ f.nbytes ∧ f.nbytes ≤ 1514) :
    (∀ j, j < f.nbytes → (run inp h (f.beats + 5)).ram.byte (a + BitVec.ofNat 32 j) = f.byte j) ↔
      ∀ j, j < f.nbytes → Frame.misrouted a (j / 4) = true → h.ram.byte (a + BitVec.ofNat 32 j) = f.byte j := by
  have hbeats := f.beats_eq
  have hbyte : ∀ j, j < f.nbytes → (run inp h (f.beats + 5)).ram.byte (a + BitVec.ofNat 32 j) =
      if Frame.misrouted a (j / 4) then h.ram.byte (a + BitVec.ofNat 32 j) else f.byte j := by
    intro j hj
    rw [g.byte_released (by omega), Frame.landed_buffer halign (by omega) (by omega) _ hj]
  constructor
  · intro hall j hj hm
    have := hall j hj
    rwa [hbyte j hj, if_pos hm] at this
  · intro hold j hj
    rw [hbyte j hj]
    split_ifs with hm
    · exact hold j hj hm
    · rfl

/-- **What is in the buffer when the slot is published.** The frame, if and only if the memory held the
misrouted words of the frame before. -/
theorem published_buffer_iff {sched : List (Nat × Frame)} {s w d : Nat} (hr : h.AfterReset sched)
    (o : Offers inp h f s w) (hc : (run inp h w).dmac.cur = .wait)
    (hask : ∀ k, 1 ≤ k → k ≤ d → (run inp h (w + k)).dmac.cur = .abus) (hn : (run inp h (w + d)).nxtState = .write)
    (hA : (run inp h (w + d)).dmac.regs.rxBdAdr (run inp h (w + d)).dmac.ring.rxBdIdx = a)
    (haddr : (run inp h (w + d)).dmac.out.heapAddr =
      (run inp h (w + d)).dmac.regs.rxBdAdr (run inp h (w + d)).dmac.ring.rxBdIdx)
    (halign : a.toNat % 4 = 0) (hheap : 0x10000 ≤ a.toNat ∧ a.toNat + f.nbytes ≤ 0x20000)
    (hlen : 60 ≤ f.nbytes ∧ f.nbytes ≤ 1514) (hacc : Dmac.keepFrame f.dstMac = true)
    (hclr : ∀ k, k < f.beats + 5 → (run inp h (w + d + k)).dmac.regs.rxBdClr.getLsbD
      (run inp h (w + d)).dmac.ring.rxBdIdx.toNat = false) :
    (run inp h (w + d + (f.beats + 5))).dmac.ring.rxBdSta.getLsbD (run inp h (w + d)).dmac.ring.rxBdIdx.toNat = true ∧
      (run inp h (w + d + (f.beats + 5))).mux.busReady = false ∧
      ((∀ j, j < f.nbytes → (run inp h (w + d + (f.beats + 5))).ram.byte (a + BitVec.ofNat 32 j) = f.byte j) ↔
        ∀ j, j < f.nbytes → Frame.misrouted a (j / 4) = true →
          (run inp h (w + d)).ram.byte (a + BitVec.ofNat 32 j) = f.byte j) := by
  have g := o.granted hr hc hask hn
  rw [haddr, hA] at g
  have hthree : 3 ≤ f.beats := by rw [f.beats_eq]; omega
  simp only [run_add inp h (w + d)] at hclr ⊢
  exact ⟨g.published hthree (by omega) hacc hclr, (g.released _ (by omega)).2, g.buffer_iff halign hheap.2 hlen⟩

/-- The address of slot 0 is programmed and the controller is switched on. -/
def receiveAt (a : BitVec 32) (t : Nat) : HeapIn :=
  if t = 0 then ⟨.idle, .store 0x80000040 a⟩ else if t = 2 then ⟨.idle, .store 0x800000c0 1⟩
  else ⟨.idle, .idle⟩

theorem granted_broadcast :
    GrantAfter (receiveAt 0x00010100) (start [(6, RxLog.broadcast)]) RxLog.broadcast 7 2 ∧
      (run (receiveAt 0x00010100) (start [(6, RxLog.broadcast)]) 9).dmac.out.heapAddr = 0x00010100 ∧
      (run (receiveAt 0x00010100) (start [(6, RxLog.broadcast)]) 9).dmac.regs.rxBdAdr
        (run (receiveAt 0x00010100) (start [(6, RxLog.broadcast)]) 9).dmac.ring.rxBdIdx = 0x00010100 ∧
      ∀ k, k < 20 → (run (receiveAt 0x00010100) (start [(6, RxLog.broadcast)]) (7 + 2 + k)).dmac.regs.rxBdClr.getLsbD
        (run (receiveAt 0x00010100) (start [(6, RxLog.broadcast)]) 9).dmac.ring.rxBdIdx.toNat = false := by
  decide +kernel

theorem published_buffer_iff_broadcast :
    (run (receiveAt 0x00010100) (start [(6, RxLog.broadcast)]) 29).dmac.ring.rxBdSta.getLsbD
        (run (receiveAt 0x00010100) (start [(6, RxLog.broadcast)]) 9).dmac.ring.rxBdIdx.toNat = true ∧
      (run (receiveAt 0x00010100) (start [(6, RxLog.broadcast)]) 29).mux.busReady = false ∧
      ((∀ j, j < 60 → (run (receiveAt 0x00010100) (start [(6, RxLog.broadcast)]) 29).ram.byte
          (0x00010100 + BitVec.ofNat 32 j) = RxLog.broadcast.byte j) ↔
        ∀ j, j < 60 → Frame.misrouted 0x00010100 (j / 4) = true →
          (run (receiveAt 0x00010100) (start [(6, RxLog.broadcast)]) 9).ram.byte
            (0x00010100 + BitVec.ofNat 32 j) = RxLog.broadcast.byte j) :=
  have ⟨g, haddr, hadr, hclr⟩ := granted_broadcast
  published_buffer_iff (a := 0x00010100) (f := RxLog.broadcast) (w := 7) (d := 2) (start_afterReset [(6, RxLog.broadcast)])
    g.offers g.wait g.abus g.write hadr (haddr.trans hadr.symm) (by decide) (by decide) (by decide) (by decide) hclr

/-- A broadcast frame of 60 bytes, received over zeros at an address in the middle of a bank: when the
slot is published and the bus is free the first word of the buffer is still 0. -/
theorem first_word_not_stored :
    (run (receiveAt 0x00010100) (start [(6, RxLog.broadcast)]) 9).dmac.cur = .abus ∧
      (run (receiveAt 0x00010100) (start [(6, RxLog.broadcast)]) 9).nxtState = .write ∧
      (run (receiveAt 0x00010100) (start [(6, RxLog.broadcast)]) 9).dmac.regs.rxBdAdr 0 = 0x00010100 ∧
      (run (receiveAt 0x00010100) (start [(6, RxLog.broadcast)]) 29).dmac.ring.rxBdSta.getLsbD 0 = true ∧
      (run (receiveAt 0x00010100) (start [(6, RxLog.broadcast)]) 29).mux.busReady = false ∧
      (run (receiveAt 0x00010100) (start [(6, RxLog.broadcast)]) 29).ram.byte 0x00010100 = 0x00 ∧
      RxLog.broadcast.byte 0 = 0xff := by
  decide +kernel

/-! ### The rest of the heap -/

variable (inp) in
/-- The memory in the cycles of a reception and in the two that release the bus. -/
theorem Granted.byte_le (g : Granted f a h) (htwo : 2 ≤ f.beats) {k : Nat} (hk : k ≤ f.beats + 5) (x : BitVec 32) :
    ∃ m, m ≤ f.beats - 1 ∧ (run inp h k).ram.byte x = f.landed a h.ram.byte x m := by
  rcases Nat.lt_or_ge k (f.beats + 5) with hlt | hge
  · exact ⟨k - 5, by omega, g.byte htwo x k (by omega)⟩
  · obtain rfl : k = f.beats + 5 := Nat.le_antisymm hk hge
    exact ⟨f.beats - 1, Nat.le_refl _, g.byte_released htwo x⟩

theorem Granted.outside_kept_iff (g : Granted f a h) (halign : a.toNat % 4 = 0)
    (hheap : 0x10000 ≤ a.toNat ∧ a.toNat + f.nbytes ≤ 0x20000) (hlen : 60 ≤ f.nbytes ∧ f.nbytes ≤ 1514) :
    (∀ k, k ≤ f.beats + 5 → ∀ x : BitVec 32, 0x10000 ≤ x.toNat → x.toNat < 0x20000 →
        ¬ (a.toNat ≤ x.toNat ∧ x.toNat < a.toNat + f.nbytes) → (run inp h k).ram.byte x = h.ram.byte x) ↔
      ∀ j, j < f.nbytes → Frame.strays a (j / 4) →
        h.ram.byte (BitVec.ofNat 32 (Frame.place a (j / 4) + j % 4)) = f.byte j := by
  have hbeats := f.beats_eq
  constructor
  · intro hkeep j hj hs
    obtain ⟨x, hx, hlo, hhi, hout, hl, hlane⟩ := hs.outside halign hheap (by omega) hj
    have hb := hkeep (f.beats + 5) (Nat.le_refl _) x hlo hhi hout
    rw [g.byte_released (by omega), Frame.landed_eq_of_lands (by omega) (by omega) hs.1 (by omega) (by omega) hl,
      hlane, show 4 * (j / 4) + j % 4 = j by omega] at hb
    rw [← hx, ← hb]
  · intro hheld k hk x hlo hhi hout
    obtain ⟨m, hm, hb⟩ := g.byte_le inp (by omega) hk x
    rw [hb]
    by_cases hany : ∃ i, 1 ≤ i ∧ i ≤ m ∧ f.lands a i x = true
    · obtain ⟨i, h1, hi, hl⟩ := hany
      obtain ⟨hs, hx⟩ := Frame.strays_of_lands halign hheap ⟨hlo, hhi⟩ hout h1 (by omega) hl
      have hkept := ((Frame.lands_iff (by omega) (by omega)).1 hl).2.1
      have hold := hheld (4 * i + x.toNat % 4) hkept
      rw [show (4 * i + x.toNat % 4) / 4 = i by omega, show (4 * i + x.toNat % 4) % 4 = x.toNat % 4 by omega,
        ← hx, BitVec.ofNat_toNat, BitVec.setWidth_eq] at hold
      rw [Frame.landed_eq_of_lands (by omega) (by omega) h1 hi (by omega) hl, hold hs]
    · refine Frame.landed_of_not_lands fun i h1 hi => ?_
      rw [← Bool.not_eq_true]
      exact fun hl => hany ⟨i, h1, hi, hl⟩

/-- **When a reception leaves the rest of the heap alone**: exactly when every byte of a word that strays
into another bank is already there, at the place where it lands. -/
theorem outside_buffer_kept_iff {sched : List (Nat × Frame)} {s w d : Nat} (hr : h.AfterReset sched)
    (o : Offers inp h f s w) (hc : (run inp h w).dmac.cur = .wait)
    (hask : ∀ k, 1 ≤ k → k ≤ d → (run inp h (w + k)).dmac.cur = .abus) (hn : (run inp h (w + d)).nxtState = .write)
    (hA : (run inp h (w + d)).dmac.out.heapAddr = a) (halign : a.toNat % 4 = 0)
    (hheap : 0x10000 ≤ a.toNat ∧ a.toNat + f.nbytes ≤ 0x20000) (hlen : 60 ≤ f.nbytes ∧ f.nbytes ≤ 1514) :
    (∀ k, k ≤ f.beats + 5 → ∀ x : BitVec 32, 0x10000 ≤ x.toNat → x.toNat < 0x20000 →
        ¬ (a.toNat ≤ x.toNat ∧ x.toNat < a.toNat + f.nbytes) →
        (run inp h (w + d + k)).ram.byte x = (run inp h (w + d)).ram.byte x) ↔
      ∀ j, j < f.nbytes → Frame.strays a (j / 4) →
        (run inp h (w + d)).ram.byte (BitVec.ofNat 32 (Frame.place a (j / 4) + j % 4)) = f.byte j := by
  have g := o.granted hr hc hask hn
  rw [hA] at g
  simp only [run_add inp h (w + d)]
  exact g.outside_kept_iff halign hheap hlen

theorem outside_buffer_kept_iff_broadcast :
    (∀ k, k ≤ 20 → ∀ x : BitVec 32, 0x10000 ≤ x.toNat → x.toNat < 0x20000 →
        ¬ (0x10100 ≤ x.toNat ∧ x.toNat < 0x10100 + 60) →
        (run (receiveAt 0x00010100) (start [(6, RxLog.broadcast)]) (9 + k)).ram.byte x =
          (run (receiveAt 0x00010100) (start [(6, RxLog.broadcast)]) 9).ram.byte x) ↔
      ∀ j, j < 60 → Frame.strays 0x00010100 (j / 4) →
        (run (receiveAt 0x00010100) (start [(6, RxLog.broadcast)]) 9).ram.byte
          (BitVec.ofNat 32 (Frame.place 0x00010100 (j / 4) + j % 4)) = RxLog.broadcast.byte j :=
  have ⟨g, haddr, _⟩ := granted_broadcast
  outside_buffer_kept_iff (a := 0x00010100) (f := RxLog.broadcast) (w := 7) (d := 2) (start_afterReset [(6, RxLog.broadcast)])
    g.offers g.wait g.abus g.write haddr (by decide) (by decide) (by decide)

/-- The buffer starts 16 bytes below a bank boundary: the fifth word of the frame overwrites the first
word of the heap, 16 KB in front of its place. -/
theorem stray_word_overwrites :
    (run (receiveAt 0x00013ff0) (start [(6, RxLog.broadcast)]) 9).dmac.cur = .abus ∧
      (run (receiveAt 0x00013ff0) (start [(6, RxLog.broadcast)]) 9).nxtState = .write ∧
      (run (receiveAt 0x00013ff0) (start [(6, RxLog.broadcast)]) 9).dmac.regs.rxBdAdr 0 = 0x00013ff0 ∧
      (run (receiveAt 0x00013ff0) (start [(6, RxLog.broadcast)]) 9).ram.byte 0x00010000 = 0x00 ∧
      (run (receiveAt 0x00013ff0) (start [(6, RxLog.broadcast)]) 29).ram.byte 0x00010000 = 0xff := by
  decide +kernel

/-! ### The bytes strobed -/

/-- The cycles of the `STATE_WRITE` episode that follows the state `h`. -/
def InEpisode (inp : Nat → HeapIn) (h : Heap) (k : Nat) : Prop :=
  1 ≤ k ∧ ∀ j, 1 ≤ j → j ≤ k → (run inp h j).dmac.cur = .write

namespace Granted

theorem episode_le (g : Granted f a h) (htwo : 2 ≤ f.beats) {k : Nat} (he : InEpisode inp h k) :
    k ≤ f.beats + 3 := by
  by_contra hk
  have hcur := he.2 (f.beats + 4) (by omega) (by omega)
  rcases (g.released _ htwo).1.cur with e | e <;> rw [e] at hcur <;> cases hcur

theorem inEpisode (g : Granted f a h) (htwo : 2 ≤ f.beats) {k : Nat} (h1 : 1 ≤ k) (hk : k ≤ f.beats + 3) :
    InEpisode inp h k := by
  refine ⟨h1, fun j hj1 hjk => ?_⟩
  obtain ⟨m, rfl⟩ : ∃ m, j = m + 1 := ⟨j - 1, by omega⟩
  exact (g.writing inp htwo m (by omega)).1.cur

variable (inp) in
theorem strobed (g : Granted f a h) (htwo : 2 ≤ f.beats) {k : Nat} (h1 : 1 ≤ k) (hk : k ≤ f.beats + 3)
    (x : BitVec 32) : (run inp h k).ram.strobed ((run inp h k).ramPort (inp k)) x =
      (decide (5 ≤ k) && f.lands a (k - 4) x) := by
  obtain ⟨m, rfl⟩ : ∃ m, k = m + 1 := ⟨k - 1, by omega⟩
  exact (g.ramAt inp htwo m (by omega)).strobed (g.writing inp htwo m (by omega)).1 x

/-- A frame of one beat: one cycle, and no byte is strobed. -/
theorem strobed_runt (g : Granted f a h) (hone : f.beats = 1) {k : Nat} (he : InEpisode inp h k)
    (x : BitVec 32) : (run inp h k).ram.strobed ((run inp h k).ramPort (inp k)) x = false := by
  have hone' : h.src.cur.beats = 1 := by rw [g.frame]; exact hone
  have hrunt : Runt (run inp h 1) := g.waiting.runt g.asking g.nxt g.busReady hone'
  have hk : k = 1 := by
    by_contra hk
    have hcur := he.2 2 (by omega) (by have := he.1; omega)
    have r : Resting (run inp h 2) := hrunt.step
    rcases r.cur with e | e <;> rw [e] at hcur <;> cases hcur
  subst hk
  rw [Ram64KB.strobed, show (run inp h 1).ram.ramWstrb (bankOf x) = 0 from ramWstrb_step g.memValidReg (bankOf x)]
  simp

end Granted

theorem Granted.strobes_iff (g : Granted f a h) (halign : a.toNat % 4 = 0)
    (hheap : 0x10000 ≤ a.toNat ∧ a.toNat + 1700 ≤ 0x20000) (hlen : f.nbytes ≤ 4096) :
    (∀ k, InEpisode inp h k → ∀ x : BitVec 32, 0x10000 ≤ x.toNat → x.toNat < 0x20000 →
        (run inp h k).ram.strobed ((run inp h k).ramPort (inp k)) x = true →
        a.toNat ≤ x.toNat ∧ x.toNat < a.toNat + 1700) ↔
      f.nbytes ≤ 1700 ∧ bankOf a = bankOf (a + BitVec.ofNat 32 (4 * (f.beats - 1))) := by
  have hbeats := f.beats_eq
  have hpos := f.nbytes_pos
  have hlast : (a + BitVec.ofNat 32 (4 * (f.beats - 1))).toNat = a.toNat + 4 * (f.beats - 1) :=
    Frame.toNat_add_ofNat (by omega)
  rcases Nat.lt_or_ge f.beats 2 with hlt | htwo
  · -- a single beat
    have hone : f.beats = 1 := by omega
    rw [bankOf_eq_iff, hlast]
    refine ⟨fun _ => ⟨by omega, by omega⟩, fun _ k he x _ _ hst => ?_⟩
    rw [g.strobed_runt hone he] at hst
    cases hst
  · rw [bankOf_eq_iff, hlast]
    constructor
    · intro hall
      refine Frame.fits_of_place halign hlen fun i h1 hi => ?_
      -- every word is strobed at the place where it lands
      have hst := g.strobed inp htwo (k := i + 4) (by omega) (by omega) (BitVec.ofNat 32 (Frame.place a i))
      have hl : f.lands a i (BitVec.ofNat 32 (Frame.place a i)) = true :=
        Frame.lands_place (r := 0) hi (by omega) (by omega) (by omega)
      have hto : (BitVec.ofNat 32 (Frame.place a i)).toNat = Frame.place a i := Frame.toNat_place i (r := 0) (by omega)
      rw [Nat.add_sub_cancel, hl, decide_eq_true (by omega)] at hst
      have hplace := Frame.place_lt (a := a) i
      have hx := hall (i + 4) (g.inEpisode htwo (by omega) (by omega)) _ (by rw [hto]; exact hplace.1)
        (by rw [hto]; exact hplace.2) hst
      rwa [hto] at hx
    · rintro ⟨hfit, hbank⟩ k he x hlo hhi hst
      have hk := g.episode_le htwo he
      rw [g.strobed _ htwo he.1 hk, Bool.and_eq_true, decide_eq_true_iff] at hst
      have hlen := ((Frame.lands_iff (by omega) (by omega)).1 hst.2).2.1
      have hplace := Frame.eq_place_of_lands (by omega) (by omega) ⟨hlo, hhi⟩ hst.2
      rcases Frame.place_eq (i := k - 4) halign hheap.1 (by omega) with ⟨-, hp⟩ | ⟨hne, -⟩
      · omega
      · omega

/-- **When the bytes strobed stay inside the buffer**: exactly for the frames that fit into it and stay
in the bank in which they start. -/
theorem strobes_in_buffer_iff {sched : List (Nat × Frame)} {s w d : Nat} (hr : h.AfterReset sched)
    (o : Offers inp h f s w) (hc : (run inp h w).dmac.cur = .wait)
    (hask : ∀ k, 1 ≤ k → k ≤ d → (run inp h (w + k)).dmac.cur = .abus) (hn : (run inp h (w + d)).nxtState = .write)
    (hA : (run inp h (w + d)).dmac.regs.rxBdAdr (run inp h (w + d)).dmac.ring.rxBdIdx = a)
    (haddr : (run inp h (w + d)).dmac.out.heapAddr =
      (run inp h (w + d)).dmac.regs.rxBdAdr (run inp h (w + d)).dmac.ring.rxBdIdx)
    (halign : a.toNat % 4 = 0) (hheap : 0x10000 ≤ a.toNat ∧ a.toNat + 1700 ≤ 0x20000)
    (hlen : f.nbytes ≤ 4096) :
    (∀ k, InEpisode (fun j => inp (w + d + j)) (run inp h (w + d)) k → ∀ x : BitVec 32,
        0x10000 ≤ x.toNat → x.toNat < 0x20000 →
        (run inp h (w + d + k)).ram.strobed ((run inp h (w + d + k)).ramPort (inp (w + d + k))) x = true →
        a.toNat ≤ x.toNat ∧ x.toNat < a.toNat + 1700) ↔
      f.nbytes ≤ 1700 ∧ bankOf a = bankOf (a + BitVec.ofNat 32 (4 * (f.beats - 1))) := by
  have g := o.granted hr hc hask hn
  rw [haddr, hA] at g
  simp only [run_add inp h (w + d)]
  exact g.strobes_iff halign hheap hlen

theorem strobes_in_buffer_iff_broadcast :
    (∀ k, InEpisode (fun j => receiveAt 0x00010100 (9 + j))
        (run (receiveAt 0x00010100) (start [(6, RxLog.broadcast)]) 9) k → ∀ x : BitVec 32,
        0x10000 ≤ x.toNat → x.toNat < 0x20000 →
        (run (receiveAt 0x00010100) (start [(6, RxLog.broadcast)]) (9 + k)).ram.strobed
          ((run (receiveAt 0x00010100) (start [(6, RxLog.broadcast)]) (9 + k)).ramPort
            (receiveAt 0x00010100 (9 + k))) x = true →
        0x10100 ≤ x.toNat ∧ x.toNat < 0x10100 + 1700) ↔
      60 ≤ 1700 ∧ bankOf 0x00010100 = bankOf (0x00010100 + BitVec.ofNat 32 (4 * (15 - 1))) :=
  have ⟨g, haddr, hadr, _⟩ := granted_broadcast
  strobes_in_buffer_iff (a := 0x00010100) (f := RxLog.broadcast) (w := 7) (d := 2) (start_afterReset [(6, RxLog.broadcast)])
    g.offers g.wait g.abus g.write hadr (haddr.trans hadr.symm) (by decide) (by decide) (by decide)

/-- A frame of 1704 bytes. -/
def longFrame : Frame := .ofWords (List.replicate 425 0xffffffff) 0xffffffff

/-- Its last word is strobed behind the 1700 bytes of the buffer. -/
theorem long_frame_overruns :
    (run (receiveAt 0x00010100) (start [(6, longFrame)]) 9).dmac.regs.rxBdAdr 0 = 0x00010100 ∧
      InEpisode (fun j => receiveAt 0x00010100 (9 + j)) (run (receiveAt 0x00010100) (start [(6, longFrame)]) 9) 429 ∧
      (run (receiveAt 0x00010100) (start [(6, longFrame)]) (9 + 429)).ram.strobed
        ((run (receiveAt 0x00010100) (start [(6, longFrame)]) (9 + 429)).ramPort (receiveAt 0x00010100 (9 + 429)))
        (0x00010100 + 1700) = true := by
  have g₁ : GrantAfter (receiveAt 0x00010100) (start [(6, longFrame)]) longFrame 7 2 := by decide +kernel
  have ha : (run (receiveAt 0x00010100) (start [(6, longFrame)]) 9).dmac.out.heapAddr = 0x00010100 ∧
      (run (receiveAt 0x00010100) (start [(6, longFrame)]) 9).dmac.regs.rxBdAdr 0 = 0x00010100 := by
    decide +kernel
  have g := g₁.offers.granted (start_afterReset [(6, longFrame)]) g₁.wait g₁.abus g₁.write
  rw [ha.1] at g
  have hbeats : longFrame.beats = 426 := congrArg (· + 1) (List.length_replicate ..)
  refine ⟨ha.2, g.inEpisode (by omega) (by omega) (by omega), ?_⟩
  rw [run_add, g.strobed (fun j => receiveAt 0x00010100 (9 + j)) (by omega) (by omega) (by omega)]
  decide +kernel

end Heap

end Picorv32Soc
