import Mathlib.Order.Bounds.Basic
import Picorv32Soc.Delivery

/-!
# What becomes of a received pbuf

Two properties of the receive path that the ownership invariant leaves open.

`dma_rx_irq` shrinks the pbuf of a slot to the length of the frame, so it seems; what it hands to
`pbuf_realloc` is the address of the length register. `lengths` are the lengths asked for, and the
packet ends with the least of them.

`ethernetif_input` gives a packet away before it takes the entry out of `recv_q`, and returns in between
when `pbuf_alloc` fails. `GivenOnce` holds as long as that does not happen.
-/

namespace Picorv32Soc
open Bits

namespace Driver
variable {P : Type*} {s : Driver P} {p : P} {k : BitVec 3} {n : Nat}

/-! ### The length of a packet -/

/-- The length the packet has, and those that the first `n` rounds of the handler, from slot `k` on, ask
`pbuf_realloc` for. -/
def lengths (s : Driver P) (sta : BitVec 8) (k : BitVec 3) (n : Nat) (p : P) : Set Nat :=
  insert (s.totLen p) {m | ∃ i ∈ found sta k n, s.dmaBdPbuf i = some p ∧ m = 96 + 4 * (k + BitVec.ofNat 3 i).toNat}

theorem mem_found {sta : BitVec 8} {i : Nat} :
    i ∈ found sta k n ↔ i < n ∧ sta.getLsbD (k + BitVec.ofNat 3 i).toNat = true := by
  rw [found, List.mem_filter, List.mem_range]

theorem mem_lengths_succ {sta : BitVec 8} {m : Nat} :
    m ∈ s.lengths sta k (n + 1) p ↔ (sta.getLsbD (k + BitVec.ofNat 3 n).toNat = true ∧ s.dmaBdPbuf n = some p ∧
      m = 96 + 4 * (k + BitVec.ofNat 3 n).toNat) ∨ m ∈ s.lengths sta k n p := by
  constructor
  · rintro (h | ⟨i, hi, hp, h⟩)
    · exact .inr (.inl h)
    · obtain ⟨hlt, hb⟩ := mem_found.1 hi
      rcases Nat.lt_succ_iff_lt_or_eq.1 hlt with hlt | rfl
      exacts [.inr (.inr ⟨i, mem_found.2 ⟨hlt, hb⟩, hp, h⟩), .inl ⟨hb, hp, h⟩]
  · rintro (⟨hb, hp, h⟩ | h | ⟨i, hi, hp, h⟩)
    · exact .inr ⟨n, mem_found.2 ⟨Nat.lt_succ_self n, hb⟩, hp, h⟩
    · exact .inl h
    · obtain ⟨hlt, hb⟩ := mem_found.1 hi
      exact .inr ⟨i, mem_found.2 ⟨Nat.lt_succ_of_lt hlt, hb⟩, hp, h⟩

theorem rotate_totLen (s : Driver P) : s.rotate.totLen = s.totLen := by
  unfold rotate
  split_ifs <;> rfl

variable [DecidableEq P]

/-- The address of a length register, cut to 16 bits. -/
theorem rxBdLen_address (k : BitVec 3) : (0x80000060 + 4 * k.toNat) % 2 ^ 16 = 96 + 4 * k.toNat := by
  have := k.isLt
  omega

theorem pbufRealloc_of_ne {lens : P → Nat} {x : Option P} {m : Nat} (h : x ≠ some p) :
    pbufRealloc lens x m p = lens p := by
  cases x with
  | none => rfl
  | some x => exact Function.update_of_ne (fun hp : p = x => h (congrArg some hp.symm)) ..

/-- **A packet is left with the least length asked for.** -/
theorem isLeast_totLen_irqLoop (sta : BitVec 8) (w : s.recvQ.Wf) (hm : s.mask = slotBit k)
    (hi : s.maskIdx = k.toNat) (hn : s.recvQ.len + n ≤ 8) (p : P) :
    IsLeast (s.lengths sta k n p) ((irqLoop (sta.setWidth 32) n s).totLen p) := by
  induction n with
  | zero => exact ⟨.inl rfl, by rintro m (rfl | ⟨i, hi, -⟩); exacts [le_rfl, nomatch hi]⟩
  | succ n ih =>
    have ih := ih (by omega)
    obtain ⟨lens, q, he, -, -⟩ := irqLoop_eq sta w hm hi (n := n) (by omega)
    rw [he] at ih
    rw [irqLoop, he, irqBody, rotate_totLen]
    simp only [and_slotBit, rxBdLen_address]
    by_cases hit : sta.getLsbD (k + BitVec.ofNat 3 n).toNat = true ∧ s.dmaBdPbuf n = some p
    · have hset : s.lengths sta k (n + 1) p = insert (96 + 4 * (k + BitVec.ofNat 3 n).toNat) (s.lengths sta k n p) := by
        ext m
        rw [mem_lengths_succ, Set.mem_insert_iff]
        exact or_congr_left ⟨fun h => h.2.2, fun h => ⟨hit.1, hit.2, h⟩⟩
      rw [hset, if_pos hit.1]
      simpa only [hit.2, pbufRealloc, Function.update_self] using ih.insert _
    · have hset : s.lengths sta k (n + 1) p = s.lengths sta k n p := by
        ext m
        rw [mem_lengths_succ]
        exact or_iff_right fun h => hit ⟨h.1, h.2.1⟩
      rw [hset]
      split_ifs with hb
      · show IsLeast _ (pbufRealloc lens (s.dmaBdPbuf n) _ p)
        rwa [pbufRealloc_of_ne fun hp => hit ⟨hb, hp⟩]
      · exact ih

end Driver

namespace RxPath
variable {P : Type*} [DecidableEq P] {pool : Pool P} {ps : BitVec 3 → P} {y : RxPath P} {p : P} {i : Nat}

/-- What holds however the interrupts fall. -/
structure Sound (y : RxPath P) : Prop where
  wf : y.drv.recvQ.Wf
  mask : ∃ k, y.drv.mask = slotBit k ∧ y.drv.maskIdx = k.toNat
  sta : ∀ e ∈ y.hist.pend, y.drv.ring.rxBdSta.getLsbD e.1.toNat = true

namespace Sound

/-- Besides the lengths of the packets only the queue and the place of the handler change. -/
theorem dmaRxIrq_eq (w : Sound y) : ∃ lens q k, y.drv.dmaRxIrq =
    { y.drv with totLen := lens, recvQ := q, mask := slotBit k, maskIdx := k.toNat } ∧ q.Wf := by
  obtain ⟨k, hm, hi⟩ := w.mask
  have hlen : y.drv.recvQ.len ≤ 8 := w.wf.le
  obtain ⟨lens, q, he, wq, -⟩ := Driver.irqLoop_eq y.drv.ring.rxBdSta w.wf hm hi (n := 8 - y.drv.recvQ.len) (by omega)
  exact ⟨lens, q, _, he, wq⟩

theorem main (w : Sound y) {inputOk : Bool} {new : Option P} {s' : Driver P}
    (hs : y.drv.main pool inputOk new = some s') : Sound ⟨s', y.hist.observe pool (.main inputOk new) y.drv⟩ := by
  unfold Driver.main at hs
  unfold RxHistory.observe
  cases hpc : y.drv.pc with
  | fetch =>
    rw [hpc] at hs
    cases hin : y.drv.lowLevelInput with
    | none | some => rw [hin] at hs; obtain rfl := Option.some.inj hs; exact ⟨w.wf, w.mask, w.sta⟩
  | dispatch | setPbuf | setAdr =>
    rw [hpc] at hs
    obtain rfl := Option.some.inj hs
    exact ⟨w.wf, w.mask, w.sta⟩
  | alloc =>
    rw [hpc] at hs
    cases new with
    | none => obtain rfl := Option.some.inj hs; exact ⟨w.wf, w.mask, w.sta⟩
    | some p =>
      dsimp only at hs
      split_ifs at hs
      obtain rfl := Option.some.inj hs
      exact ⟨w.wf, w.mask, w.sta⟩
  | pop p =>
    rw [hpc] at hs
    obtain rfl := Option.some.inj hs
    exact ⟨w.wf.qindex, w.mask, w.sta⟩
  | clr j =>
    rw [hpc] at hs
    obtain rfl := Option.some.inj hs
    refine ⟨w.wf, w.mask, fun e he => ?_⟩
    obtain ⟨he, hb⟩ := List.mem_filter.1 he
    show (y.drv.ring.rxBdSta &&& ~~~ j.setWidth 8).getLsbD e.1.toNat = true
    rw [BitVec.getLsbD_and, BitVec.getLsbD_not, w.sta e he, hb, decide_eq_true e.1.isLt]
    rfl

theorem step (w : Sound y) {a : Act P} {y' : RxPath P} (h : y.step pool a = some y') : Sound y' := by
  obtain ⟨s', hs, rfl⟩ := Option.map_eq_some_iff.1 h
  cases a with
  | rxStart =>
    obtain ⟨-, rfl⟩ := Driver.of_rxStart hs
    exact ⟨w.wf, w.mask, w.sta⟩
  | rxPublish f =>
    obtain ⟨a, -, rfl⟩ := Option.map_eq_some_iff.1 hs
    refine ⟨w.wf, w.mask, fun e he => ?_⟩
    show (setBit y.drv.ring.rxBdSta y.drv.ring.rxBdIdx.toNat true).getLsbD e.1.toNat = true
    rw [Dmac.Ring.getLsbD_setBit_slot]
    split_ifs with hidx
    · rfl
    · rcases List.mem_append.1 he with he | he
      · exact w.sta e he
      · rw [List.mem_singleton.1 he] at hidx
        exact absurd rfl hidx
  | rxDrop f =>
    obtain ⟨a, -, rfl⟩ := Option.map_eq_some_iff.1 hs
    exact ⟨w.wf, w.mask, w.sta⟩
  | irq =>
    obtain rfl := Driver.of_irq hs
    obtain ⟨lens, q, k, he, wq⟩ := w.dmaRxIrq_eq
    rw [he]
    exact ⟨wq, ⟨k, rfl, rfl⟩, w.sta⟩
  | stackFree p =>
    obtain ⟨-, rfl⟩ := Driver.of_stackFree hs
    exact ⟨w.wf, w.mask, w.sta⟩
  | main inputOk new => exact w.main hs

end Sound

theorem sound_of_reach (r : Steps.Reach (step pool) Steps.Free (init pool ps) y) : y.Sound :=
  r.inv ⟨Pqueue.wf_create, ⟨0, rfl, rfl⟩, nofun⟩ fun _ _ _ w _ h => w.step h

/-- The pbuf that round `i` enqueues, and its length when the handler returns. -/
theorem Sound.enqueued (w : Sound y) {k : BitVec 3} {f : Frame} (he : (k, f) ∈ y.hist.pend)
    (hi : i < 8 - y.drv.recvQ.qlength) (hk : BitVec.ofNat 3 (y.drv.maskIdx + i) = k) (hp : y.drv.dmaBdPbuf i = some p) :
    (some p, slotBit k) ∈ y.drv.dmaRxIrq.recvQ.toList ∧
      i ∈ Driver.found y.drv.ring.rxBdSta (BitVec.ofNat 3 y.drv.maskIdx) (8 - y.drv.recvQ.qlength) ∧
      IsLeast (y.drv.lengths y.drv.ring.rxBdSta (BitVec.ofNat 3 y.drv.maskIdx) (8 - y.drv.recvQ.qlength) p)
        (y.drv.dmaRxIrq.totLen p) := by
  obtain ⟨k₀, hm, hidx⟩ := w.mask
  have hk₀ : BitVec.ofNat 3 y.drv.maskIdx = k₀ := by rw [hidx, BitVec.ofNat_toNat, BitVec.setWidth_eq]
  have hround : k₀ + BitVec.ofNat 3 i = k := by rw [← hk, BitVec.ofNat_add, hk₀]
  have hlen : y.drv.recvQ.len + (8 - y.drv.recvQ.qlength) ≤ 8 := by
    have : y.drv.recvQ.len ≤ 8 := w.wf.le
    unfold Pqueue.qlength
    omega
  have hfound : i ∈ Driver.found y.drv.ring.rxBdSta k₀ (8 - y.drv.recvQ.qlength) :=
    Driver.mem_found.2 ⟨hi, by rw [hround]; exact w.sta _ he⟩
  rw [hk₀]
  refine ⟨?_, hfound, Driver.isLeast_totLen_irqLoop _ w.wf hm hidx hlen p⟩
  obtain ⟨lens, q, heq, -, hq⟩ := Driver.irqLoop_eq y.drv.ring.rxBdSta w.wf hm hidx hlen
  rw [Driver.dmaRxIrq, heq, hq]
  refine List.mem_append_right _ (List.mem_map.2 ⟨i, hfound, ?_⟩)
  rw [hp, hround]

/-- **When a received packet has the length of its frame.** The frame has landed in slot `k`, which is
the turn of round `i`. -/
theorem enqueued_length_iff (r : Steps.Reach (step pool) Steps.Free (init pool ps) y) {k : BitVec 3} {f : Frame}
    (he : (k, f) ∈ y.hist.pend) (hi : i < 8 - y.drv.recvQ.qlength)
    (hk : BitVec.ofNat 3 (y.drv.maskIdx + i) = k) (hp : y.drv.dmaBdPbuf i = some p) :
    (some p, slotBit k) ∈ y.drv.dmaRxIrq.recvQ.toList ∧
      (y.drv.dmaRxIrq.totLen p = f.nbytes ↔
        IsLeast (y.drv.lengths y.drv.ring.rxBdSta (BitVec.ofNat 3 y.drv.maskIdx) (8 - y.drv.recvQ.qlength) p)
          f.nbytes) ∧
      (y.drv.totLen p = 1500 → (∀ j, y.drv.dmaBdPbuf j = some p → j = i) →
        (y.drv.dmaRxIrq.totLen p = f.nbytes ↔ f.nbytes = 96 + 4 * k.toNat)) := by
  obtain ⟨hmem, hfound, hleast⟩ := (sound_of_reach r).enqueued he hi hk hp
  refine ⟨hmem, ⟨fun h => h ▸ hleast, fun h => hleast.unique h⟩, fun hnew honce => ?_⟩
  have hslot : BitVec.ofNat 3 y.drv.maskIdx + BitVec.ofNat 3 i = k := by rw [← BitVec.ofNat_add, hk]
  -- no other round asks for this packet, and no slot is as long as the packet was
  have hown : IsLeast (y.drv.lengths y.drv.ring.rxBdSta (BitVec.ofNat 3 y.drv.maskIdx)
      (8 - y.drv.recvQ.qlength) p) (96 + 4 * k.toNat) := by
    refine ⟨.inr ⟨i, hfound, hp, by rw [hslot]⟩, ?_⟩
    rintro m (rfl | ⟨j, -, hj, rfl⟩)
    · have := k.isLt
      omega
    · rw [honce j hj, hslot]
  rw [hleast.unique hown]
  exact eq_comm

/-- An IP frame of 96 bytes. -/
def ip96 : Frame := .ofWords ([0xffffffff, 0x0000ffff, 0, 0x00000008] ++ List.replicate 19 0) 0

theorem enqueued_length_iff_ip96 :
    ∃ y, Steps.Reach (step pool16) Steps.Free boot y ∧ y.hist.pend = [(0, ip96)] ∧
      (y.drv.dmaRxIrq.totLen 0 = ip96.nbytes ↔
        IsLeast (y.drv.lengths y.drv.ring.rxBdSta (BitVec.ofNat 3 y.drv.maskIdx) (8 - y.drv.recvQ.qlength) 0)
          ip96.nbytes) := by
  have hrun : (Steps.exec (step pool16) Steps.Free (receive ip96) boot).map
      (fun y => (y.hist.pend, y.drv.recvQ.qlength, y.drv.maskIdx, y.drv.dmaBdPbuf 0)) =
        some ([(0, ip96)], 0, 0, some 0) := by decide +kernel
  obtain ⟨y, r, hy⟩ := Steps.Reach.of_map_exec _ _ hrun
  simp only [Prod.mk.injEq] at hy
  obtain ⟨hpend, hlen, hidx, hp⟩ := hy
  exact ⟨y, r, hpend, (enqueued_length_iff r (k := 0) (f := ip96) (i := 0) (by rw [hpend]; simp)
    (by rw [hlen]; decide) (by rw [hidx]; rfl) hp).2.1⟩

/-- An IP frame of 1512 bytes. -/
def ip1512 : Frame := .ofWords ([0xffffffff, 0x0000ffff, 0, 0x00000008] ++ List.replicate 373 0) 0

/-- A packet of 1512 bytes is cut to 96, the low half of the address of `rx_BD_len_0`. -/
theorem packet_cut_to_address :
    ∃ y, Steps.Reach (step pool16) Steps.Free boot y ∧ y.hist.pend = [(0, ip1512)] ∧ ip1512.nbytes = 1512 ∧
      y.drv.dmaRxIrq.recvQ.toList = [(some 0, 1)] ∧ y.drv.dmaRxIrq.totLen 0 = 96 := by
  have hrun : (Steps.exec (step pool16) Steps.Free (receive ip1512) boot).map
      (fun y => (y.hist.pend, y.drv.dmaRxIrq.recvQ.toList, y.drv.dmaRxIrq.totLen 0)) =
        some ([(0, ip1512)], [(some 0, 1)], 96) := by decide +kernel
  obtain ⟨y, r, hy⟩ := Steps.Reach.of_map_exec _ _ hrun
  simp only [Prod.mk.injEq] at hy
  exact ⟨y, r, hy.1, by decide +kernel, hy.2.1, hy.2.2⟩

/-! ### `pbuf_alloc` fails -/

/-- An action that is not a statement of `ethernetif_input` leaves it where it is, and gives no pbuf to
the driver. -/
theorem step_other (w : Sound y) {a : Act P} {y' : RxPath P} (h : y.step pool a = some y')
    (ha : ∀ inputOk new, a ≠ .main inputOk new) :
    y'.drv.pc = y.drv.pc ∧ y'.drv.dmaBdPbuf = y.drv.dmaBdPbuf ∧
      (∀ p, y'.drv.owner p = .driver → y.drv.owner p = .driver) ∧
      ∀ e ∈ y.hist.pend.head?, e ∈ y'.hist.pend.head? := by
  obtain ⟨s', hs, rfl⟩ := Option.map_eq_some_iff.1 h
  cases a with
  | rxStart =>
    obtain ⟨-, rfl⟩ := Driver.of_rxStart hs
    exact ⟨rfl, rfl, fun _ h => h, fun _ h => h⟩
  | rxPublish f =>
    obtain ⟨a, -, rfl⟩ := Option.map_eq_some_iff.1 hs
    exact ⟨rfl, rfl, fun _ h => h, fun _ h => Owns.head?_append _ h⟩
  | rxDrop f =>
    obtain ⟨a, -, rfl⟩ := Option.map_eq_some_iff.1 hs
    exact ⟨rfl, rfl, fun _ h => h, fun _ h => h⟩
  | irq =>
    obtain rfl := Driver.of_irq hs
    obtain ⟨lens, q, k, he, -⟩ := w.dmaRxIrq_eq
    rw [he]
    exact ⟨rfl, rfl, fun _ h => h, fun _ h => h⟩
  | stackFree p =>
    obtain ⟨-, rfl⟩ := Driver.of_stackFree hs
    refine ⟨rfl, rfl, fun p' (hp' : Function.update y.drv.owner p .free p' = .driver) => ?_, fun _ h => h⟩
    rcases eq_or_ne p' p with rfl | hne
    · rw [Function.update_self] at hp'; cases hp'
    · rwa [Function.update_of_ne hne] at hp'
  | main inputOk new => exact absurd rfl (ha inputOk new)

/-- The receive path, and what `pbuf_alloc` returned to `ethernetif_input` the last time. -/
structure Watched (P : Type*) where
  path : RxPath P
  new : Option P

namespace Watched
variable {w : Watched P}

def start (y : RxPath P) : Watched P := ⟨y, none⟩

def step (pool : Pool P) (a : Act P) (w : Watched P) : Option (Watched P) :=
  (w.path.step pool a).map fun y => ⟨y, match a, w.path.drv.pc with
    | .main _ new, .alloc => new
    | _, _ => w.new⟩

def Clean (a : Act P) (w : Watched P) : Prop := RxPath.Clean a w.path

instance (a : Act P) (w : Watched P) : Decidable (Clean a w) := inferInstanceAs (Decidable (RxPath.Clean a w.path))

/-- The packet about to be given away, to `netif->input` or to `pbuf_free`, is the driver's: it was not
given away since `pbuf_alloc` returned it. And the packet a slot is armed with is the one that
`pbuf_alloc` has just returned. -/
structure GivenOnce (w : Watched P) : Prop where
  gives : ∀ p, w.path.drv.pc = .dispatch p → w.path.drv.owner p = .driver
  arms : ∀ p j, w.path.drv.pc = .setPbuf p j ∨ w.path.drv.pc = .setAdr p j →
    w.new = some p ∧ w.path.drv.owner p = .driver

/-- The packet that `pbuf_alloc` has returned and no slot has yet. -/
def carried : Pc P → Option P
  | .pop p | .setPbuf p _ | .setAdr p _ => some p
  | _ => none

/-- The invariant: ownership as before; once the oldest packet is given away it is not the driver's. -/
structure Inv (pool : Pool P) (w : Watched P) : Prop where
  owns : ∃ hold, RxPath.Inv pool hold w.path
  gone : w.path.drv.pc = .alloc → ∀ e ∈ w.path.hist.pend.head?, ∀ p,
    w.path.drv.dmaBdPbuf e.1.toNat = some p → w.path.drv.owner p ≠ .driver
  new : ∀ p, carried w.path.drv.pc = some p → w.new = some p

end Watched

omit [DecidableEq P] in
theorem Inv.sound {hold : BitVec 3 → Option P} (w : Inv pool hold y) : Sound y where
  wf := w.owns.wf
  mask := w.owns.mask
  sta := fun e he => by
    rw [w.owns.ring.sta]
    exact decide_eq_true (List.mem_map_of_mem he)

namespace Watched
variable {w : Watched P}

omit [DecidableEq P] in
theorem Inv.givenOnce (v : Inv pool w) : w.GivenOnce := by
  obtain ⟨hold, i⟩ := v.owns
  have l := i.loc
  unfold Local at l
  refine ⟨fun p hpc => ?_, fun p j hpc => ?_⟩
  · rw [hpc] at l
    obtain ⟨-, e, -, hp⟩ := l
    exact i.owns.own e.1 p hp
  · rcases hpc with hpc | hpc
    all_goals
      have hnew := v.new p (by rw [hpc]; rfl)
      rw [hpc] at l
      obtain ⟨e, -, hp, -⟩ := l
      exact ⟨hnew, i.owns.own e.1 p hp⟩

/-- The actions of the others. -/
theorem Inv.other (v : Inv pool w) {a : Act P} {y' : RxPath P} (h : w.path.step pool a = some y')
    (ha : ∀ inputOk new, a ≠ .main inputOk new) (ho : ∃ hold, RxPath.Inv pool hold y') : Inv pool ⟨y', w.new⟩ := by
  obtain ⟨hold, i⟩ := v.owns
  obtain ⟨hpc, hb, hown, hhead⟩ := step_other i.sound h ha
  refine ⟨ho, fun hal e he p hp hdrv => ?_, fun p hp => v.new p (by rwa [← hpc])⟩
  have hal' := hpc.symm.trans hal
  have l := i.loc
  unfold Local at l
  rw [hal'] at l
  obtain ⟨-, e', he', -⟩ := l
  obtain rfl := Option.mem_unique (hhead e' he') he
  exact v.gone hal' e' he' p (by rwa [← hb]) (hown p hdrv)

/-- The statements of `ethernetif_input`. -/
theorem Inv.main (v : Inv pool w) {inputOk : Bool} {new : Option P} {w' : Watched P}
    (hc : Clean (.main inputOk new) w) (h : w.step pool (.main inputOk new) = some w') : Inv pool w' := by
  obtain ⟨y', hy, rfl⟩ := Option.map_eq_some_iff.1 h
  obtain ⟨hold, i⟩ := v.owns
  have ho := i.step hc hy
  obtain ⟨s', hs, rfl⟩ := Option.map_eq_some_iff.1 hy
  have hs : w.path.drv.main pool inputOk new = some s' := hs
  unfold Driver.main at hs
  have l := i.loc
  unfold Local at l
  cases hpc : w.path.drv.pc with
  | fetch =>
    rw [hpc] at hs
    cases hin : w.path.drv.lowLevelInput with
    | none | some =>
      rw [hin] at hs
      obtain rfl := Option.some.inj hs
      exact ⟨ho, by simp [hpc], by simp [carried, hpc]⟩
  | dispatch p =>
    rw [hpc] at hs l
    obtain rfl := Option.some.inj hs
    obtain ⟨-, e, he, hp⟩ := l
    refine ⟨ho, fun _ e' he' p' hp' => ?_, nofun⟩
    have hpend : (w.path.hist.observe pool (.main inputOk new) w.path.drv).pend = w.path.hist.pend := by
      unfold RxHistory.observe
      rw [hpc]
    have o := i.owns
    rw [hpc] at o
    obtain ⟨q, hq, hb, -⟩ := o.armed e.1 nofun
    obtain rfl : e' = e := Option.mem_unique (hpend ▸ he') he
    obtain rfl : p = q := Option.some.inj (hp.symm.trans hq)
    obtain rfl : p = p' := Option.some.inj (hb.symm.trans hp')
    show Function.update w.path.drv.owner p _ p ≠ .driver
    rw [Function.update_self]
    split_ifs <;> exact nofun
  | alloc =>
    rw [hpc] at hs
    cases new with
    | none =>
      have := hc.1
      unfold Act.allocates at this
      rw [hpc] at this
      cases this
    | some p =>
      dsimp only at hs
      split_ifs at hs
      obtain rfl := Option.some.inj hs
      exact ⟨ho, nofun, fun p' hp' => hp'⟩
  | pop p =>
    have hnew := v.new p (by rw [hpc]; rfl)
    rw [hpc] at hs
    obtain rfl := Option.some.inj hs
    exact ⟨ho, nofun, fun p' hp' => hnew.trans hp'⟩
  | setPbuf p j =>
    have hnew := v.new p (by rw [hpc]; rfl)
    rw [hpc] at hs
    obtain rfl := Option.some.inj hs
    exact ⟨ho, nofun, fun p' hp' => hnew.trans hp'⟩
  | setAdr p j =>
    rw [hpc] at hs
    obtain rfl := Option.some.inj hs
    exact ⟨ho, nofun, nofun⟩
  | clr j =>
    rw [hpc] at hs
    obtain rfl := Option.some.inj hs
    exact ⟨ho, nofun, nofun⟩

theorem Inv.step (v : Inv pool w) {a : Act P} {w' : Watched P} (hc : Clean a w) (h : w.step pool a = some w') :
    Inv pool w' := by
  cases a with
  | main inputOk new => exact v.main hc h
  | rxStart | rxPublish | rxDrop | irq | stackFree =>
    obtain ⟨y', hy, rfl⟩ := Option.map_eq_some_iff.1 h
    obtain ⟨hold, i⟩ := v.owns
    exact v.other hy nofun (i.step hc hy)

theorem inv_of_reach (hps : Function.Injective ps)
    (r : Steps.Reach (step pool) Clean (start (init pool ps)) w) : Inv pool w :=
  r.inv ⟨⟨_, inv_init hps⟩, nofun, nofun⟩ fun _ _ _ v hc h => v.step hc h

variable (pool) in
theorem step_fetch (hpc : w.path.drv.pc = .fetch) (hin : w.path.drv.lowLevelInput = some p) :
    ∃ z, w.step pool (.main true none) = some z ∧ z.path.drv.pc = .dispatch p ∧
      z.path.drv.owner = w.path.drv.owner := by
  have hmain : w.path.drv.main pool true none = some { w.path.drv with pc := .dispatch p } := by
    rw [Driver.main, hpc]
    simp only [hin]
  have hstep : w.step pool (.main true none) = ((w.path.drv.main pool true none).map _).map _ := rfl
  rw [hmain] at hstep
  exact ⟨_, hstep, rfl, rfl⟩

/-- After a failed allocation the next call gives the same packet away. -/
theorem Inv.not_givenOnce (v : Inv pool w) (hpc : w.path.drv.pc = .alloc) {inputOk : Bool} {w' : Watched P}
    (h : w.step pool (.main inputOk none) = some w') :
    ∃ z, Steps.Reach (Watched.step pool) Clean w' z ∧ ¬ z.GivenOnce := by
  obtain ⟨y', hy, rfl⟩ := Option.map_eq_some_iff.1 h
  obtain ⟨s', hs, rfl⟩ := Option.map_eq_some_iff.1 hy
  have hs : w.path.drv.main pool inputOk none = some s' := hs
  rw [Driver.main, hpc] at hs
  obtain rfl := Option.some.inj hs
  obtain ⟨hold, i⟩ := v.owns
  have l := i.loc
  unfold Local at l
  rw [hpc] at l
  obtain ⟨hlen, e, he, p, hb, -, -⟩ := l
  have o := i.owns
  rw [hpc] at o
  obtain ⟨e', he', hcons⟩ := o.toList_eq_cons hlen
  obtain rfl := Option.mem_unique he' he
  -- the entry is still in the queue, so `low_level_input` returns it once more
  have hin : w.path.drv.lowLevelInput = some p := by
    rw [Driver.lowLevelInput, Pqueue.qlength, if_neg (Nat.ne_of_gt hlen), (o.wf.pop hcons).1, hb]
  obtain ⟨z, hz, hzpc, hown⟩ := step_fetch pool
    (w := ⟨⟨{ w.path.drv with pc := .fetch }, w.path.hist.observe pool (.main inputOk none) w.path.drv⟩, _⟩) rfl hin
  refine ⟨z, .next (.main true none) .start ⟨rfl, nofun⟩ hz, fun g => v.gone hpc e' he p hb ?_⟩
  rw [← g.gives p hzpc, hown]

/-- **Each packet is given away once**, as long as `pbuf_alloc` succeeds; a failure is what leads to a
packet given away twice. -/
theorem given_once_iff (hps : Function.Injective ps)
    (r : Steps.Reach (step pool) Clean (start (init pool ps)) w) :
    w.GivenOnce ∧ ∀ inputOk new w', w.path.drv.pc = .alloc → w.step pool (.main inputOk new) = some w' →
      ((∀ z, Steps.Reach (step pool) Clean w' z → z.GivenOnce) ↔ new.isSome = true) := by
  have v := inv_of_reach hps r
  refine ⟨v.givenOnce, fun inputOk new w' hpc hs => ⟨fun hall => ?_, fun hnew z rz => ?_⟩⟩
  · cases new with
    | none =>
      obtain ⟨z, rz, hz⟩ := v.not_givenOnce hpc hs
      exact absurd (hall z rz) hz
    | some p => rfl
  · have hc : Clean (.main inputOk new) w := by
      refine ⟨?_, nofun⟩
      cases new with
      | none => cases hnew
      | some p => rfl
    exact (inv_of_reach hps ((r.next _ hc hs).trans rz)).givenOnce

/-- The packet about to be given away. -/
def giving (w : Watched P) : Option P :=
  match w.path.drv.pc with
  | .dispatch p => some p
  | _ => none

omit [DecidableEq P] in
theorem dispatch_of_giving (h : w.giving = some p) : w.path.drv.pc = .dispatch p := by
  unfold giving at h
  split at h
  · next hpc => rw [hpc, Option.some.inj h]
  · cases h

/-- A frame is received and its packet is about to be passed on. -/
theorem given_once_iff_ipFrame :
    ∃ w, Steps.Reach (step pool16) Clean (start boot) w ∧ w.giving = some 0 ∧ w.GivenOnce := by
  have hrun : (Steps.exec (step pool16) Clean (receive ipFrame ++ [.irq] ++ input 8 1) (start boot)).map giving =
      some (some 0) := by decide +kernel
  obtain ⟨w, r, hw⟩ := Steps.Reach.of_map_exec _ _ hrun
  exact ⟨w, r, hw, (given_once_iff boot_injective r).1⟩

/-- Interrupts in order, and any outcome of `pbuf_alloc`. -/
def InOrder (a : Act P) (w : Watched P) : Prop := a.isIrq = true → w.path.IrqInOrder

instance (a : Act P) (w : Watched P) : Decidable (InOrder a w) := inferInstanceAs (Decidable (_ → _))

/-- One frame, and one `pbuf_alloc` that fails: the packet that lwIP has is about to be passed on again. -/
theorem packet_given_twice :
    ∃ w, Steps.Reach (step pool16) InOrder (start boot) w ∧ w.path.hist.published = [ipFrame] ∧
      w.path.hist.passed = [ipFrame] ∧ w.path.drv.pc = .dispatch 0 ∧ w.path.drv.owner 0 = .stack ∧
      ¬ w.GivenOnce := by
  have hrun : (Steps.exec (step pool16) InOrder
      (receive ipFrame ++ [.irq] ++ input 8 2 ++ List.replicate 2 (.main true none)) (start boot)).map
        (fun w => (w.path.hist.published, w.path.hist.passed, w.giving, w.path.drv.owner 0)) =
      some ([ipFrame], [ipFrame], some 0, .stack) := by decide +kernel
  obtain ⟨w, r, hw⟩ := Steps.Reach.of_map_exec _ _ hrun
  simp only [Prod.mk.injEq] at hw
  obtain ⟨hpub, hpas, hgiv, hown⟩ := hw
  have hpc := dispatch_of_giving hgiv
  refine ⟨w, r, hpub, hpas, hpc, hown, fun g => ?_⟩
  have := g.gives 0 hpc
  rw [hown] at this
  cases this

end Watched

end RxPath

end Picorv32Soc
