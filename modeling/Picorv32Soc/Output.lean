import Picorv32Soc.Grant
import Picorv32Soc.Transmit

/-!
# `low_level_output`

The driver sends a packet that lwIP hands over as a chain of pbufs: for each pbuf in turn it programs
descriptor 0, requests the transmission and spins until the controller has taken the request back.
The function is a list of bus commands (`lowLevelOutput`), executed at any speed (`Executes`). A request
is only ever taken back behind a beat with `tlast` (`TxMark`), so the chain comes out as one frame for
each of its pbufs.
-/

namespace Picorv32Soc

/-- A `struct pbuf`, with the bytes `payload` points to; `len` is their number. -/
structure Pbuf where
  payload : BitVec 32
  bytes : List (BitVec 8)

/-- What the CPU does on the register port of the controller. -/
inductive Cmd
  | store (addr val : BitVec 32)
  /-- `while (*addr == val);` -/
  | spin (addr val : BitVec 32)

/-- `low_level_output`: the loop over `q = p; q != NULL; q = q->next`. -/
def lowLevelOutput : List Pbuf → List Cmd
  | [] => []
  | q :: qs =>
    -- tx_BD_adr_0, tx_BD_len_0 and tx_BD_sta
    .store 0x80000080 q.payload :: .store 0x800000a0 (BitVec.ofNat 32 q.bytes.length) ::
      .store 0x800000cc 1 :: .spin 0x800000cc 1 :: lowLevelOutput qs

namespace Heap
variable {h : Heap} {i : HeapIn} {inp : Nat → HeapIn} {cs : List Cmd} {t t' : Nat}

/-- The CPU executes `cs` from cycle `t` on and is done in cycle `t'`. Between two commands any time may
pass, in which nothing is stored to the registers; a load that spins may be repeated at any rate. -/
inductive Executes (inp : Nat → HeapIn) (h : Heap) : List Cmd → Nat → Nat → Prop
  | done (t : Nat) : Executes inp h [] t t
  | pass {cs : List Cmd} {t t' : Nat} (hno : (run inp h t).dmac.regs.store (inp t).mem = false)
    (hrest : Executes inp h cs (t + 1) t') : Executes inp h cs t t'
  | store {addr val : BitVec 32} {cs : List Cmd} {t t' : Nat}
    (hst : (run inp h t).dmac.regs.store (inp t).mem = true) (haddr : (inp t).mem.addr = addr)
    (hval : (inp t).mem.wdata = val) (hrest : Executes inp h cs (t + 1) t') :
    Executes inp h (.store addr val :: cs) t t'
  | spun {addr val : BitVec 32} {cs : List Cmd} {t t' : Nat}
    (hacc : (run inp h t).dmac.regs.access (inp t).mem = true) (hload : (inp t).mem.wstrb = 0)
    (haddr : (inp t).mem.addr = addr)
    (hne : (run inp h t).dmac.regs.readData (run inp h t).dmac.ring (inp t).mem ≠ val)
    (hrest : Executes inp h cs (t + 1) t') : Executes inp h (.spin addr val :: cs) t t'

/-- Nothing is stored to the registers from cycle `t` up to cycle `u`. -/
def NoStore (inp : Nat → HeapIn) (h : Heap) (t u : Nat) : Prop :=
  ∀ k, t ≤ k → k < u → (run inp h k).dmac.regs.store (inp k).mem = false

theorem NoStore.le_of_store {u k : Nat} (hno : NoStore inp h t u) (hk : t ≤ k)
    (hst : (run inp h k).dmac.regs.store (inp k).mem = true) : u ≤ k := by
  by_contra hlt
  rw [hno k hk (by omega)] at hst; cases hst

theorem Executes.of_store {addr val : BitVec 32} (e : Executes inp h (.store addr val :: cs) t t') :
    ∃ u, t ≤ u ∧ NoStore inp h t u ∧ (run inp h u).dmac.regs.store (inp u).mem = true ∧
      (inp u).mem.addr = addr ∧ (inp u).mem.wdata = val ∧ Executes inp h cs (u + 1) t' := by
  generalize hcs : Cmd.store addr val :: cs = cs' at e
  induction e with
  | done => cases hcs
  | pass hno _ ih =>
    obtain ⟨u, hu, hq, hrest⟩ := ih hcs
    refine ⟨u, by omega, fun k h1 h2 => ?_, hrest⟩
    rcases Nat.eq_or_lt_of_le h1 with rfl | hlt
    · exact hno
    · exact hq k hlt h2
  | store hst haddr hval hrest =>
    cases hcs
    exact ⟨_, Nat.le_refl _, fun k h1 h2 => absurd h2 (by omega), hst, haddr, hval, hrest⟩
  | spun => cases hcs

theorem Executes.of_spin {addr val : BitVec 32} (e : Executes inp h (.spin addr val :: cs) t t') :
    ∃ u, t ≤ u ∧ NoStore inp h t (u + 1) ∧ (inp u).mem.addr = addr ∧
      (run inp h u).dmac.regs.readData (run inp h u).dmac.ring (inp u).mem ≠ val ∧ Executes inp h cs (u + 1) t' := by
  generalize hcs : Cmd.spin addr val :: cs = cs' at e
  induction e with
  | done => cases hcs
  | pass hno _ ih =>
    obtain ⟨u, hu, hq, hrest⟩ := ih hcs
    refine ⟨u, by omega, fun k h1 h2 => ?_, hrest⟩
    rcases Nat.eq_or_lt_of_le h1 with rfl | hlt
    · exact hno
    · exact hq k hlt h2
  | store => cases hcs
  | @spun _ _ _ u _ _ hload haddr hne hrest =>
    cases hcs
    refine ⟨u, Nat.le_refl _, fun k h1 h2 => ?_, haddr, hne, hrest⟩
    obtain rfl : k = u := by omega
    simp [Dmac.Regs.store, hload]

theorem Executes.le (e : Executes inp h cs t t') : t ≤ t' := by
  induction e with
  | done => exact Nat.le_refl _
  | pass _ _ ih => omega
  | store _ _ _ _ ih => omega
  | spun _ _ _ _ _ ih => omega

/-- The cycles of one round of the loop: the three stores and the load that ends the spinning. -/
structure Round (inp : Nat → HeapIn) (h : Heap) (q : Pbuf) (t ta tl ts te : Nat) : Prop where
  order : t ≤ ta ∧ ta < tl ∧ tl < ts ∧ ts < te
  before : NoStore inp h t ta
  adr : (run inp h ta).dmac.regs.store (inp ta).mem = true ∧ (inp ta).mem.addr = 0x80000080 ∧
    (inp ta).mem.wdata = q.payload
  between : NoStore inp h (ta + 1) tl
  len : (run inp h tl).dmac.regs.store (inp tl).mem = true ∧ (inp tl).mem.addr = 0x800000a0 ∧
    (inp tl).mem.wdata = BitVec.ofNat 32 q.bytes.length
  ready : NoStore inp h (tl + 1) ts
  sta : (run inp h ts).dmac.regs.store (inp ts).mem = true ∧ (inp ts).mem.addr = 0x800000cc ∧
    (inp ts).mem.wdata = 1
  spinning : NoStore inp h (ts + 1) (te + 1)
  spun : (run inp h te).dmac.regs.txBdSta ≠ 1

theorem Executes.round {q : Pbuf} {qs : List Pbuf} (e : Executes inp h (lowLevelOutput (q :: qs)) t t') :
    ∃ ta tl ts te, Round inp h q t ta tl ts te ∧ Executes inp h (lowLevelOutput qs) (te + 1) t' := by
  obtain ⟨ta, h1, q1, s1, a1, v1, e⟩ := Executes.of_store e
  obtain ⟨tl, h2, q2, s2, a2, v2, e⟩ := e.of_store
  obtain ⟨ts, h3, q3, s3, a3, v3, e⟩ := e.of_store
  obtain ⟨te, h4, q4, a4, hne, e⟩ := e.of_spin
  refine ⟨ta, tl, ts, te, ⟨⟨h1, h2, h3, h4⟩, q1, ⟨s1, a1, v1⟩, q2, ⟨s2, a2, v2⟩, q3, ⟨s3, a3, v3⟩, q4, ?_⟩, e⟩
  intro hsta
  apply hne
  simp [Dmac.Regs.readData, Dmac.Regs.group, Dmac.Regs.sel, a4, hsta]

/-! ### The end of a request -/

/-- A request is taken back two cycles behind the last beat of a transmission, and there is none without
a request. -/
structure TxMark (h : Heap) : Prop where
  ready : h.dmac.out.txStaReady = true → h.dmac.cur = .keep
  busy : h.dmac.cur = .read ∨ h.dmac.cur = .keep → h.dmac.txStaValid = true
  one : h.dmac.cur = .keep → h.dmac.out.txStaReady = false → h.dmac.tx.tvalidM1 = true ∧ h.dmac.tx.tlastM1 = true
  two : h.dmac.out.txStaReady = true → h.dmac.tx.tvalidM2 = true ∧ h.dmac.tx.tlastM2 = true

theorem step_txStaReady (ht : (Heap.step i h).dmac.out.txStaReady = true) :
    h.nxtState = .keep ∧ h.dmac.out.rtxAxisTvalid = false := by
  rw [step_out] at ht
  cases hn : h.nxtState <;> rw [hn] at ht <;> first | cases ht | refine ⟨rfl, ?_⟩
  have ht : (if h.dmac.out.rtxAxisTvalid then false else true) = true := ht
  cases hv : h.dmac.out.rtxAxisTvalid
  · rfl
  · rw [hv] at ht; cases ht

theorem TxMark.step (w : TxMark h) (v : TxInv h) (hp : TxProtocol i h) : TxMark (Heap.step i h) := by
  refine ⟨fun ht => (step_txStaReady ht).1, fun hc => ?_, fun hc hr => ?_, fun ht => ?_⟩
  · have hv : h.dmac.txStaValid = true ∧ h.dmac.out.txStaReady = false := by
      rcases hc with hn | hn
      · rcases of_nxtState_read hn with ⟨hc, -, hv⟩ | ⟨hc, -⟩
        · exact ⟨hv, (v.abus hc).2.2.2⟩
        · refine ⟨w.busy (.inl hc), Bool.eq_false_iff.2 fun ht => ?_⟩
          rw [w.ready ht] at hc; cases hc
      · rcases of_nxtState_keep hn with ⟨hc, -⟩ | ⟨hc, hr⟩
        · refine ⟨w.busy (.inl hc), Bool.eq_false_iff.2 fun ht => ?_⟩
          rw [w.ready ht] at hc; cases hc
        · exact ⟨w.busy (.inr hc), hr⟩
    exact txStaValid_step (fun _ => hp.sta) hv.2 hv.1
  · rcases of_nxtState_keep hc with ⟨hc', hl⟩ | ⟨hc', -⟩
    · exact ⟨v.reading hc', hl⟩
    · have hready : (Heap.step i h).dmac.out.txStaReady = true := by
        rw [step_out_keep h i hc]
        show (if h.dmac.out.rtxAxisTvalid then false else true) = true
        rw [v.keep hc']; rfl
      rw [hready] at hr; cases hr
  · obtain ⟨hn, hv⟩ := step_txStaReady ht
    rcases of_nxtState_keep hn with ⟨hc, -⟩ | ⟨hc, hr⟩
    · rw [v.reading hc] at hv; cases hv
    · exact w.one hc hr

namespace Round
variable {q : Pbuf} {ta tl ts te : Nat}

end Round

/-! ### Frames sent -/

/-- The number of frames that end in `bs`. -/
def frames (bs : List Beat) : Nat := bs.countP Beat.tlast

end Heap

theorem IsPacket.frames {bs : List Beat} {bytes : List (BitVec 8)} (hp : IsPacket bs bytes) : Heap.frames bs = 1 := by
  obtain ⟨k, hk⟩ := hp.last
  have hcount : (bs.map Beat.tlast).countP id = 1 := by rw [hk]; simp
  rwa [List.countP_map] at hcount

namespace Heap
variable {h : Heap} {i : HeapIn} {inp : Nat → HeapIn} {cs : List Cmd} {t t' : Nat}

namespace Round
variable {q : Pbuf} {ta tl ts te : Nat}

theorem stores (r : Round inp h q t ta tl ts te) {k : Nat} (h1 : ta < k) (h2 : k ≤ te)
    (hst : (run inp h k).dmac.regs.store (inp k).mem = true) : k = tl ∨ k = ts := by
  rcases Nat.eq_or_lt_of_le (r.between.le_of_store h1 hst) with e | hgt
  · exact .inl e.symm
  · rcases Nat.eq_or_lt_of_le (r.ready.le_of_store hgt hst) with e | hgt
    · exact .inr e.symm
    · have := r.spinning.le_of_store hgt hst
      omega

theorem txBdAdr (r : Round inp h q t ta tl ts te) {k : Nat} (h1 : ta < k) (h2 : k ≤ te) :
    (run inp h k).dmac.regs.txBdAdr 0 = q.payload := by
  induction k with
  | zero => omega
  | succ k ih =>
    show (run inp h k).dmac.regs.stepGroup (inp k).mem 4 (run inp h k).dmac.regs.txBdAdr 0 = _
    rcases Nat.eq_or_lt_of_le (Nat.le_of_lt_succ h1) with rfl | hlt
    · rw [Dmac.Regs.stepGroup, r.adr.1, Dmac.Regs.group, Dmac.Regs.slot, r.adr.2.1, if_pos (by decide), r.adr.2.2]
      rfl
    · rw [step_group_eq, ih hlt (by omega)]
      rintro ⟨hst, hgrp, -⟩
      rcases r.stores hlt (by omega) hst with rfl | rfl
      · rw [Dmac.Regs.group, r.len.2.1] at hgrp; revert hgrp; decide
      · rw [Dmac.Regs.group, r.sta.2.1] at hgrp; revert hgrp; decide

theorem txBdLen (r : Round inp h q t ta tl ts te) {k : Nat} (h1 : tl < k) (h2 : k ≤ te) :
    (run inp h k).dmac.regs.txBdLen 0 = BitVec.ofNat 32 q.bytes.length := by
  have hal := r.order.2.1
  induction k with
  | zero => omega
  | succ k ih =>
    show (run inp h k).dmac.regs.stepGroup (inp k).mem 5 (run inp h k).dmac.regs.txBdLen 0 = _
    rcases Nat.eq_or_lt_of_le (Nat.le_of_lt_succ h1) with rfl | hlt
    · rw [Dmac.Regs.stepGroup, r.len.1, Dmac.Regs.group, Dmac.Regs.slot, r.len.2.1, if_pos (by decide), r.len.2.2]
      rfl
    · rw [step_group_eq, ih hlt (by omega)]
      rintro ⟨hst, hgrp, -⟩
      rcases r.stores (by omega) (by omega) hst with rfl | rfl
      · omega
      · rw [Dmac.Regs.group, r.sta.2.1] at hgrp; revert hgrp; decide

section
variable {g : Nat} (r : Round inp h q t ta tl ts te) (w : ∀ k, TxMark (run inp h k))
  (h0 : (run inp h t).dmac.regs.txBdSta = 0) (start : TxStart q.payload q.bytes.length (run inp h g))
include r w h0 start

end

end Round

/-- The bytes of `q` are in the memory. -/
def Held (q : Pbuf) (mem : BitVec 32 → BitVec 8) : Prop :=
  ((List.range q.bytes.length).map fun j => mem (q.payload + BitVec.ofNat 32 j)) = q.bytes

instance (q : Pbuf) (mem : BitVec 32 → BitVec 8) : Decidable (Held q mem) :=
  inferInstanceAs (Decidable (List.map _ _ = _))

end Heap

end Picorv32Soc
