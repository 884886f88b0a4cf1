import Picorv32Soc.Reception

/-!
# A transmission

From the grant on, a transmission of `N` bytes at address `A` (of any alignment) is a fixed sequence of
register values: one beat for the bytes up to the next word boundary, then one for each word, the last
of them shortened. `TxAt` gives the outputs of the state machine in phase `k`; the `tx_axis` port
follows four cycles behind, as does the data that comes out of the RAM. `transmission_gathers` puts the
beats together.
-/

namespace Picorv32Soc
open Bits

namespace Heap
variable {h : Heap} {i : HeapIn} {inp : Nat → HeapIn} {sched : List (Nat × Frame)}

/-! ### Before the grant -/

/-- The `tx_axis` pipeline has been empty for `n` cycles. -/
def TxEmpty (n : Nat) (d : Dmac) : Prop :=
  (1 ≤ n → d.out.rtxAxisTvalid = false) ∧ (2 ≤ n → d.tx.tvalidM1 = false) ∧
    (3 ≤ n → d.tx.tvalidM2 = false) ∧ (4 ≤ n → d.tx.tvalidM3 = false) ∧ (5 ≤ n → d.tx.txAxisTvalid = false)

theorem TxEmpty.step {n : Nat} (w : TxEmpty n h.dmac) (hn : h.nxtState ≠ .read) :
    TxEmpty (n + 1) (Heap.step i h).dmac := by
  refine ⟨fun _ => ?_, fun h2 => w.1 (by omega), fun h3 => w.2.1 (by omega), fun h4 => w.2.2.1 (by omega),
    fun h5 => w.2.2.2.1 (by omega)⟩
  rw [step_out]
  cases hs : h.nxtState <;> first | rfl | exact absurd hs hn

theorem txEmpty_zero (d : Dmac) : TxEmpty 0 d := ⟨by omega, by omega, by omega, by omega, by omega⟩

theorem TxEmpty.mono {m n : Nat} {d : Dmac} (w : TxEmpty n d) (hm : m ≤ n) : TxEmpty m d :=
  ⟨fun h1 => w.1 (by omega), fun h2 => w.2.1 (by omega), fun h3 => w.2.2.1 (by omega),
    fun h4 => w.2.2.2.1 (by omega), fun h5 => w.2.2.2.2 (by omega)⟩

/-- How long the `tx_axis` pipeline has been empty at least, from the state alone. -/
def emptyFor (h : Heap) : Nat :=
  match h.dmac.cur with
  | .idle => 5
  | .wait => 3
  | .abus => if h.mux.busReady then 5 else 4
  | .write => 5
  | .read => 0
  | .keep => if h.dmac.out.txStaReady then 2 else 1

/-- What holds between transmissions in every run, whatever the stream and the CPU do. -/
structure TxInv (h : Heap) : Prop where
  empty : TxEmpty (emptyFor h) h.dmac
  quiet : h.dmac.cur = .idle ∨ h.dmac.cur = .wait → h.dmac.out.busValid = false
  abus : h.dmac.cur = .abus → h.dmac.out.heapValid = false ∧ h.dmac.out.heapWstrb = 0 ∧
    h.dmac.out.busValid = true ∧ h.dmac.out.txStaReady = false
  reading : h.dmac.cur = .read → h.dmac.out.rtxAxisTvalid = true
  keep : h.dmac.cur = .keep → h.dmac.out.rtxAxisTvalid = false
  -- the CPU was off the bus when it was granted
  granted : h.dmac.cur = .abus → h.mux.busReady = true →
    h.ram.memValidReg = false ∧ h.ram.ramReady1 = false

theorem TxInv.empty_step (w : TxInv h) : TxEmpty (emptyFor (Heap.step i h)) (Heap.step i h).dmac := by
  have hcur : (Heap.step i h).dmac.cur = h.nxtState := rfl
  have hstep : h.nxtState ≠ .read → TxEmpty (emptyFor h + 1) (Heap.step i h).dmac := w.empty.step
  unfold emptyFor at hstep ⊢
  rw [hcur]
  cases hn : h.nxtState with
  | idle =>
    rw [of_nxtState_idle hn] at hstep
    exact (hstep (by rw [hn]; decide)).mono (by dsimp only; omega)
  | wait =>
    have hstep := hstep (by rw [hn]; decide)
    rcases of_nxtState_wait hn with hc | hc | hc | ⟨hc, hr⟩ <;> rw [hc] at hstep
    · exact hstep.mono (by dsimp only; omega)
    · exact hstep.mono (by dsimp only; omega)
    · exact hstep.mono (by dsimp only; omega)
    · rw [hr] at hstep; exact hstep
  | abus =>
    have hstep := hstep (by rw [hn]; decide)
    rcases of_nxtState_abus hn with ⟨hc, -⟩ | ⟨hc, hb⟩ <;> rw [hc] at hstep
    · rw [step_busReady_released h i (w.quiet (.inr hc))]; exact hstep
    · rw [hb] at hstep
      exact hstep.mono (by dsimp only; split_ifs <;> omega)
  | write =>
    have hstep := hstep (by rw [hn]; decide)
    rcases of_nxtState_write hn with ⟨hc, hb, -⟩ | ⟨hc, -⟩ <;> rw [hc] at hstep
    · rw [hb, if_pos rfl] at hstep; exact hstep.mono (by dsimp only; omega)
    · exact hstep.mono (by dsimp only; omega)
  | read => exact txEmpty_zero _
  | keep =>
    have hstep := hstep (by rw [hn]; decide)
    have hready : (Heap.step i h).dmac.out.txStaReady = !h.dmac.out.rtxAxisTvalid := by
      rw [step_out_keep h i hn]
      show (if h.dmac.out.rtxAxisTvalid then false else true) = _
      cases h.dmac.out.rtxAxisTvalid <;> rfl
    rw [hready]
    rcases of_nxtState_keep hn with ⟨hc, -⟩ | ⟨hc, hr⟩ <;> rw [hc] at hstep
    · rw [w.reading hc]; exact hstep
    · rw [hr] at hstep; rw [w.keep hc]; exact hstep

theorem TxInv.step (w : TxInv h) : TxInv (Heap.step i h) := by
  refine ⟨w.empty_step, fun hc => ?_, fun hc => ?_, fun hc => ?_, fun hc => ?_, fun hc hr => ?_⟩
  · rw [step_out_quiet h i hc]; rfl
  · rw [step_out_abus h i hc]; exact ⟨rfl, rfl, rfl, rfl⟩
  · rw [step_out_read h i hc]; rfl
  · rw [step_out_keep h i hc]; rfl
  · -- the CPU is off the bus in the cycle of the grant
    rcases of_nxtState_abus hc with ⟨hc', -⟩ | ⟨-, hb⟩
    · rw [step_busReady_released h i (w.quiet (.inr hc'))] at hr; cases hr
    · have hv := (step_busReady_granted h i hb hr).2
      have hport : (h.ramPort i).valid = false := by rw [ramPort_cpu hb]; exact hv
      refine ⟨hport, ?_⟩
      show (if h.ram.ramReady1 then false else if (h.ramPort i).valid && !h.ram.memValidReg then true
        else h.ram.ramReady1) = false
      rw [hport]
      cases h.ram.ramReady1 <;> rfl

theorem run_txInv (hr : h.AfterReset sched) : ∀ t, TxInv (run inp h t) := by
  obtain ⟨hc, ho, -⟩ := hr.quiet
  have hq : ∀ {P : Prop}, h.dmac.cur = .abus → P := fun e => by rw [hc] at e; cases e
  refine Clocked.run_inv ⟨?_, fun _ => by rw [ho]; rfl, hq, fun e => ?_, fun e => ?_, hq⟩ fun t w => w.step
  · obtain ⟨inp, h₀, -, -, rfl⟩ := hr
    exact ⟨fun _ => rfl, fun _ => rfl, fun _ => rfl, fun _ => rfl, fun _ => rfl⟩
  · rw [hc] at e; cases e
  · rw [hc] at e; cases e

/-! ### The phases -/

/-- The number of bytes up to the next word boundary. -/
def headLen (a : BitVec 32) : Nat := 4 - a.toNat % 4

/-- The number of bytes before beat `k`, the first beat being number 1. -/
def txPos (a : BitVec 32) (k : Nat) : Nat := if k ≤ 1 then 0 else headLen a + 4 * (k - 2)

def txBeats (a : BitVec 32) (n : Nat) : Nat := 1 + (n - headLen a + 3) / 4

def txKeep (a : BitVec 32) (n k : Nat) : BitVec 4 :=
  if k = 1 then Dmac.addr2keep a
  else if n - txPos a (k - 1) < 8 then Dmac.bytes2keep (BitVec.ofNat 32 (n - txPos a (k - 1))) else 0xf

/-- The outputs of the state machine in phase `k` of a transmission: `STATE_READ`, then two cycles of
`STATE_KEEP`, then rest. -/
def txOut (a : BitVec 32) (n k : Nat) : Dmac.Out :=
  if k ≤ txBeats a n then
    { Dmac.Out.quiet with
      heapValid := true
      heapAddr := a + BitVec.ofNat 32 (txPos a k)
      busValid := true
      bdFrameLen := BitVec.ofNat 32 (n - txPos a k)
      rtxAxisTvalid := true
      rtxAxisTkeep := txKeep a n k
      rtxAxisTlast := decide (k = txBeats a n) }
  else if k ≤ txBeats a n + 2 then
    { Dmac.Out.quiet with
      heapValid := true
      busValid := true
      txStaReady := decide (k = txBeats a n + 2) }
  else Dmac.Out.quiet

def txCur (a : BitVec 32) (n k : Nat) : DmaState :=
  if k ≤ txBeats a n then .read else if k ≤ txBeats a n + 2 then .keep else .wait

/-- Phase `k` of a transmission of `n` bytes at `a`. -/
structure TxAt (a : BitVec 32) (n k : Nat) (h : Heap) : Prop where
  cur : h.dmac.cur = txCur a n k
  out : h.dmac.out = txOut a n k
  busReady : h.mux.busReady = true
  tvalidM : h.dmac.pipe.rtxAxisTvalidM = decide (2 ≤ k ∧ k ≤ txBeats a n + 1)
  heapAddrM : 2 ≤ k → h.dmac.heapAddrM = a
  memValidReg : h.ram.memValidReg = decide (2 ≤ k)
  ramWstrb : ∀ b, h.ram.ramWstrb b = 0
  ramWstrbR : ∀ b, h.ram.ramWstrbR b = 0
  ramReady1 : h.ram.ramReady1 = decide (k = 2)

variable {a : BitVec 32} {n k : Nat}

theorem headLen_pos : 1 ≤ headLen a ∧ headLen a ≤ 4 := by simp only [headLen]; omega

theorem txBeats_ge (hn : 14 ≤ n) : 4 ≤ txBeats a n := by
  have := @headLen_pos a
  simp only [txBeats]; omega

/-- The look-ahead: eight bytes or less are left exactly before the last beat. -/
theorem last_iff (hn : 14 ≤ n) (hk : k ≤ txBeats a n) : n - txPos a (k - 1) ≤ 8 ↔ k = txBeats a n := by
  have := @headLen_pos a
  simp only [txPos, txBeats] at hk ⊢
  split_ifs <;> omega

theorem txPos_succ (hk : 2 ≤ k) : txPos a (k + 1) = txPos a k + 4 := by
  simp only [txPos]
  rw [if_neg (by omega), if_neg (by omega)]; omega

theorem txPos_lt (hn : 14 ≤ n) (hk : k ≤ txBeats a n) : txPos a k < n := by
  have := @headLen_pos a
  simp only [txPos, txBeats] at hk ⊢
  split_ifs <;> omega

theorem addr2len_eq : (Dmac.addr2len a).setWidth 32 = BitVec.ofNat 32 (headLen a) := by
  have hl : (a.extractLsb' 0 2).toNat = a.toNat % 4 := by simp [BitVec.extractLsb'_toNat]
  have h4 : a.toNat % 4 < 4 := Nat.mod_lt _ (by omega)
  rw [Dmac.addr2len, hl, headLen]
  interval_cases a.toNat % 4 <;> rfl

theorem ofNat_sub_ofNat {x y : Nat} (hxy : y ≤ x) :
    BitVec.ofNat 32 x - BitVec.ofNat 32 y = BitVec.ofNat 32 (x - y) := by
  obtain ⟨z, rfl⟩ := Nat.exists_eq_add_of_le hxy
  rw [Nat.add_sub_cancel_left, BitVec.ofNat_add, BitVec.add_comm, BitVec.add_sub_cancel]

theorem ofNat_le_eight {x : Nat} (hx : x < 2 ^ 32) : BitVec.ofNat 32 x ≤ 8 ↔ x ≤ 8 := by
  rw [BitVec.le_def, BitVec.toNat_ofNat, Nat.mod_eq_of_lt hx]; rfl

theorem ofNat_lt_eight {x : Nat} (hx : x < 2 ^ 32) : BitVec.ofNat 32 x < 8 ↔ x < 8 := by
  rw [BitVec.lt_def, BitVec.toNat_ofNat, Nat.mod_eq_of_lt hx]; rfl

/-- The last cycle of `STATE_ABUS` before a transmission of `n` bytes at `a`. -/
structure TxStart (a : BitVec 32) (n : Nat) (h : Heap) : Prop where
  inv : TxInv h
  cur : h.dmac.cur = .abus
  nxt : h.nxtState = .read
  addr : h.dmac.out.heapAddr = a
  len : h.dmac.out.bdFrameLen = BitVec.ofNat 32 n
  long : 14 ≤ n
  small : n < 2 ^ 32

theorem TxStart.busReady (w : TxStart a n h) : h.mux.busReady = true := by
  rcases of_nxtState_read w.nxt with ⟨-, hb, -⟩ | ⟨hc, -⟩
  · exact hb
  · rw [w.cur] at hc; cases hc

theorem TxStart.empty (w : TxStart a n h) : TxEmpty 5 h.dmac := by
  have := w.inv.empty
  rw [emptyFor, w.cur, w.busReady] at this
  exact this

theorem TxStart.first (w : TxStart a n h) : TxAt a n 1 (Heap.step i h) := by
  have hL : 4 ≤ txBeats a n := txBeats_ge w.long
  have htv : h.dmac.out.rtxAxisTvalid = false := w.empty.1 (by omega)
  obtain ⟨hv, hs, hbv, -⟩ := w.inv.abus w.cur
  obtain ⟨hm, hr⟩ := w.inv.granted w.cur w.busReady
  have hport : h.ramPort i = h.dmaPort := ramPort_granted w.busReady
  constructor
  case cur => rw [txCur, if_pos (by omega)]; exact w.nxt
  case out =>
    have hlast : decide (BitVec.ofNat 32 n ≤ 8) = decide (1 = txBeats a n) := by
      rw [decide_eq_decide, ofNat_le_eight w.small]
      have := w.long
      omega
    rw [step_out_read h i w.nxt, txOut, if_pos (by omega), Dmac.outRead, htv, w.addr, w.len, hlast]
    simp [txPos, txKeep]
  case busReady => exact step_busReady_held h i hbv w.busReady
  case tvalidM =>
    show h.dmac.out.rtxAxisTvalid = _
    rw [htv]; simp
  case heapAddrM => omega
  case memValidReg => rw [memValidReg_step, hport]; exact hv
  case ramWstrb => exact ramWstrb_step hm
  case ramWstrbR =>
    intro b
    show Ram64KB.ramWstrbW (h.ramPort i) b = 0
    rw [hport]
    show (if bankOf h.dmac.out.heapAddr = b then h.dmac.out.heapWstrb else 0) = 0
    rw [hs, ite_self]
  case ramReady1 =>
    show (if h.ram.ramReady1 then false else if (h.ramPort i).valid && !h.ram.memValidReg then true
      else h.ram.ramReady1) = _
    rw [hr, hport, show h.dmaPort.valid = false from hv]; rfl

theorem TxAt.read_step (w : TxAt a n k h) (hn : 14 ≤ n) (hs : n < 2 ^ 32) (h1 : 1 ≤ k) (hk : k < txBeats a n) :
    h.dmac.outRead = txOut a n (k + 1) := by
  have hout := w.out
  rw [txOut, if_pos (by omega)] at hout
  have htv : h.dmac.out.rtxAxisTvalid = true := by rw [hout]
  have haddr : h.dmac.out.heapAddr = a + BitVec.ofNat 32 (txPos a k) := by rw [hout]
  have hlen : h.dmac.out.bdFrameLen = BitVec.ofNat 32 (n - txPos a k) := by rw [hout]
  have hpedge : h.dmac.rtxAxisTvalidPedge = decide (k = 1) := by
    rw [Dmac.rtxAxisTvalidPedge, htv, w.tvalidM, Bool.eq_iff_iff]; simp; omega
  have hpos := txPos_lt (a := a) hn (by omega : k + 1 ≤ txBeats a n)
  have hsmall : n - txPos a k < 2 ^ 32 := by omega
  -- the address advances to the word boundary first, then by words
  have hnext : (if h.dmac.rtxAxisTvalidPedge then h.dmac.out.heapAddr + (Dmac.addr2len h.dmac.out.heapAddr).setWidth 32
        else h.dmac.out.heapAddr + 4) = a + BitVec.ofNat 32 (txPos a (k + 1)) ∧
      (if h.dmac.rtxAxisTvalidPedge then h.dmac.out.bdFrameLen - (Dmac.addr2len h.dmac.out.heapAddr).setWidth 32
        else h.dmac.out.bdFrameLen - 4) = BitVec.ofNat 32 (n - txPos a (k + 1)) := by
    rw [hpedge, haddr, hlen]
    rcases Nat.lt_or_ge 1 k with h2 | h2
    · have hp := txPos_succ (a := a) h2
      have hsub : BitVec.ofNat 32 (n - txPos a k) - BitVec.ofNat 32 4 = BitVec.ofNat 32 (n - txPos a k - 4) :=
        ofNat_sub_ofNat (by omega)
      rw [if_neg (by simp; omega), if_neg (by simp; omega), hp, BitVec.ofNat_add, ← BitVec.add_assoc, Nat.sub_add_eq]
      exact ⟨rfl, hsub⟩
    · obtain rfl : k = 1 := by omega
      have h0 : txPos a 1 = 0 := rfl
      have hp : txPos a (1 + 1) = headLen a := by simp [txPos]
      rw [if_pos (by decide), if_pos (by decide), h0, BitVec.add_zero, addr2len_eq, hp, Nat.sub_zero]
      exact ⟨rfl, ofNat_sub_ofNat (by omega)⟩
  have hlast : decide (BitVec.ofNat 32 (n - txPos a k) ≤ 8) = decide (k + 1 = txBeats a n) := by
    rw [decide_eq_decide, ofNat_le_eight hsmall]
    exact last_iff hn (k := k + 1) (by omega)
  have hkeep : (if !h.dmac.out.rtxAxisTvalid then Dmac.addr2keep h.dmac.out.heapAddr
      else if h.dmac.out.bdFrameLen < 8 then Dmac.bytes2keep h.dmac.out.bdFrameLen else 0xf) =
        txKeep a n (k + 1) := by
    rw [htv, hlen, txKeep, if_neg (by decide), if_neg (by omega : ¬ k + 1 = 1), Nat.add_sub_cancel]
    simp only [ofNat_lt_eight hsmall]
  rw [txOut, if_pos (by omega), Dmac.outRead, hkeep, hnext.1, hnext.2, hlen, hlast, htv]
  rfl

theorem TxAt.nxtState_eq (w : TxAt a n k h) (hk : k ≤ txBeats a n + 2) : h.nxtState = txCur a n (k + 1) := by
  have hcur := w.cur
  have hout := w.out
  rcases Nat.lt_or_ge (txBeats a n) k with h2 | h2
  · rw [txCur, if_neg (by omega), if_pos hk] at hcur
    rw [txOut, if_neg (by omega), if_pos hk] at hout
    have hr : h.dmac.out.txStaReady = decide (k = txBeats a n + 2) := by rw [hout]
    simp only [nxtState, Dmac.nxtState, hcur, hr, decide_eq_true_eq]
    rw [txCur, if_neg (show ¬ k + 1 ≤ txBeats a n by omega)]
    split_ifs <;> first | rfl | omega
  · rw [txCur, if_pos h2] at hcur
    rw [txOut, if_pos h2] at hout
    have hl : h.dmac.out.rtxAxisTlast = decide (k = txBeats a n) := by rw [hout]
    simp only [nxtState, Dmac.nxtState, hcur, hl, decide_eq_true_eq]
    rw [txCur]
    split_ifs <;> first | rfl | omega

theorem TxAt.step (w : TxAt a n k h) (hn : 14 ≤ n) (hs : n < 2 ^ 32) (h1 : 1 ≤ k) (hk : k ≤ txBeats a n + 2) :
    TxAt a n (k + 1) (Heap.step i h) := by
  have hL : 4 ≤ txBeats a n := txBeats_ge hn
  have hvalid : h.dmac.out.heapValid = true := by
    rw [w.out, txOut]; split_ifs <;> rfl
  have hwstrb : h.dmac.out.heapWstrb = 0 := by
    rw [w.out, txOut]; split_ifs <;> rfl
  have hbus : h.dmac.out.busValid = true := by
    rw [w.out, txOut]; split_ifs <;> rfl
  have htv : h.dmac.out.rtxAxisTvalid = decide (k ≤ txBeats a n) := by
    rw [w.out, txOut]
    split_ifs with h2
    · exact (decide_eq_true h2).symm
    · exact (decide_eq_false h2).symm
  have hnxt : h.nxtState = txCur a n (k + 1) := w.nxtState_eq hk
  have hport : h.ramPort i = h.dmaPort := ramPort_granted w.busReady
  constructor
  case cur => exact hnxt
  case out =>
    rcases Nat.lt_or_ge k (txBeats a n) with h2 | h2
    · have hr : h.nxtState = .read := by rw [hnxt, txCur, if_pos (by omega)]
      rw [step_out_read h i hr]; exact w.read_step hn hs h1 h2
    · rcases Nat.lt_or_ge k (txBeats a n + 2) with h3 | h3
      · have hr : h.nxtState = .keep := by rw [hnxt, txCur, if_neg (by omega), if_pos (by omega)]
        have hready : (if h.dmac.out.rtxAxisTvalid then false else true) = decide (k + 1 = txBeats a n + 2) := by
          rw [htv]
          by_cases h4 : k ≤ txBeats a n <;> simp [h4] <;> omega
        rw [step_out_keep h i hr, Dmac.outKeep, hready, txOut, if_neg (by omega), if_pos (by omega)]
      · have hr : h.nxtState = .wait := by rw [hnxt, txCur, if_neg (by omega), if_neg (by omega)]
        rw [step_out_quiet h i (.inr hr), txOut, if_neg (by omega), if_neg (by omega)]
  case busReady => exact step_busReady_held h i hbus w.busReady
  case tvalidM =>
    show h.dmac.out.rtxAxisTvalid = _
    rw [htv, decide_eq_decide]; omega
  case heapAddrM =>
    intro _
    show (if h.dmac.rtxAxisTvalidPedge then h.dmac.out.heapAddr else h.dmac.heapAddrM) = a
    rw [Dmac.rtxAxisTvalidPedge, htv, w.tvalidM]
    rcases Nat.lt_or_ge 1 k with h2 | h2
    · rw [if_neg (by simp; omega)]; exact w.heapAddrM h2
    · obtain rfl : k = 1 := by omega
      rw [if_pos (by simp; omega), w.out, txOut, if_pos (by omega)]
      simp [txPos]
  case memValidReg =>
    rw [memValidReg_step, hport]
    exact hvalid.trans (decide_eq_true (by omega)).symm
  case ramWstrb =>
    intro b
    show (if h.ram.memValidReg then h.ram.ramWstrbR b else 0) = 0
    rw [w.ramWstrbR, ite_self]
  case ramWstrbR =>
    intro b
    show Ram64KB.ramWstrbW (h.ramPort i) b = 0
    rw [hport]
    show (if bankOf h.dmac.out.heapAddr = b then h.dmac.out.heapWstrb else 0) = 0
    rw [hwstrb, ite_self]
  case ramReady1 =>
    show (if h.ram.ramReady1 then false else if (h.ramPort i).valid && !h.ram.memValidReg then true
      else h.ram.ramReady1) = _
    rw [w.ramReady1, hport, show h.dmaPort.valid = true from hvalid, w.memValidReg]
    rcases Nat.lt_trichotomy k 2 with h2 | h2 | h2
    · obtain rfl : k = 1 := by omega
      rfl
    · subst h2; rfl
    · rw [decide_eq_false (by omega : ¬ k = 2), decide_eq_true (by omega : 2 ≤ k),
        decide_eq_false (by omega : ¬ k + 1 = 2)]; rfl

variable (inp) in
theorem TxStart.txAt (w : TxStart a n h) : ∀ k, k ≤ txBeats a n + 2 → TxAt a n (k + 1) (run inp h (k + 1)) := by
  intro k
  induction k with
  | zero => exact fun _ => w.first
  | succ k ih => exact fun hk => (ih (by omega)).step w.long w.small (by omega) (by omega)

/-! ### The beats -/

def txAxis (h : Heap) : Beat := ⟨h.dmac.tx.txAxisTdata, h.dmac.tx.txAxisTkeep, h.dmac.tx.txAxisTlast⟩

/-- The transfers emitted before cycle `t` of a run, with `tx_axis_tready` held at 1. -/
def emitted (inp : Nat → HeapIn) (h : Heap) : Nat → List Beat :=
  Clocked.watch (fun _ h l => if h.dmac.tx.txAxisTvalid then l ++ [h.txAxis] else l) step inp h []

variable (inp) in
theorem TxStart.byte (w : TxStart a n h) (x : BitVec 32) :
    ∀ k, k ≤ txBeats a n + 3 → (run inp h k).ram.byte x = h.ram.byte x := by
  intro k
  induction k with
  | zero => exact fun _ => rfl
  | succ k ih =>
    intro hk
    rw [run_succ, step_byte, ih (by omega)]
    have hst : (run inp h k).ram.strobed ((run inp h k).ramPort (inp k)) x = false := by
      cases k with
      | zero =>
        rw [Ram64KB.strobed, ramPort_granted (h := run inp h 0) w.busReady]
        show (h.dmac.out.heapValid && _ && _) = false
        rw [(w.inv.abus w.cur).1]; rfl
      | succ k =>
        rw [Ram64KB.strobed, (w.txAt inp k (by omega)).ramWstrb]; simp
    rw [hst]; rfl

/-- The word that comes back three cycles after phase `k` put its address on the port. -/
theorem TxStart.heapRdata (w : TxStart a n h) (h1 : 1 ≤ k) (hk : k ≤ txBeats a n) :
    (run inp h (k + 3)).mux.dmaHeapRdata (run inp h (k + 3)).ram.memRdata =
      (run inp h k).ram.word (a + BitVec.ofNat 32 (txPos a k)) := by
  obtain ⟨m, rfl⟩ : ∃ m, k = m + 1 := ⟨k - 1, by omega⟩
  have r := w.txAt inp m (by omega)
  have hout := r.out
  rw [txOut, if_pos hk] at hout
  have hport : (run inp h (m + 1)).ramPort (inp (m + 1)) = (run inp h (m + 1)).dmaPort := ramPort_granted r.busReady
  have haddr : ((run inp h (m + 1)).ramPort (inp (m + 1))).addr = a + BitVec.ofNat 32 (txPos a (m + 1)) := by
    rw [hport]; show (run inp h (m + 1)).dmac.out.heapAddr = _; rw [hout]
  have hvalid : ((run inp h (m + 1)).ramPort (inp (m + 1))).valid = true := by
    rw [hport]; show (run inp h (m + 1)).dmac.out.heapValid = _; rw [hout]
  rw [MuxHeap.dmaHeapRdata, (w.txAt inp (m + 3) (by omega)).busReady, if_pos rfl, ← haddr]
  exact Ram64KB.memRdata_step _ _ _ _ hvalid (r.ramWstrb _)

/-- `heap_ready` marks the first word. -/
theorem TxStart.heapReady (w : TxStart a n h) (hk : k ≤ txBeats a n) :
    (run inp h (k + 3)).mux.dmaHeapReady (run inp h (k + 3)).ram.memReady = decide (k = 1) := by
  rw [MuxHeap.dmaHeapReady, (w.txAt inp (k + 2) (by omega)).busReady, if_pos rfl]
  have r := w.txAt inp (k + 1) (by omega)
  have hwstrb : ((run inp h (k + 2)).ramPort (inp (k + 2))).wstrb = 0 := by
    rw [ramPort_granted r.busReady]
    show (run inp h (k + 2)).dmac.out.heapWstrb = 0
    rw [r.out, txOut]; split_ifs <;> rfl
  show (if ((run inp h (k + 2)).ramPort (inp (k + 2))).wstrb ≠ 0 then _ else (run inp h (k + 1)).ram.ramReady1) = _
  rw [hwstrb, if_neg (by simp), (w.txAt inp k (by omega)).ramReady1, decide_eq_decide]
  omega

/-- `heap_rdata_wrap` moves the bytes of the buffer to the low lanes. -/
theorem byteLane_heapRdataWrap {w : BitVec 32} {l : Nat} (hl : l < headLen a) :
    byteLane (Dmac.heapRdataWrap a w) (BitVec.ofNat 2 l) = byteLane w (BitVec.ofNat 2 (a.toNat % 4 + l)) := by
  have hx : (a.extractLsb' 0 2).toNat = a.toNat % 4 := by simp [BitVec.extractLsb'_toNat]
  have h4 : a.toNat % 4 < 4 := Nat.mod_lt _ (by omega)
  rw [headLen] at hl
  have hshift : ∀ c m, m = 32 - 8 * c → c + l < 4 →
      byteLane ((w.extractLsb' (8 * c) m).setWidth 32) (BitVec.ofNat 2 l) = byteLane w (BitVec.ofNat 2 (c + l)) :=
    fun c m hm hl => byteLane_shift w hl hm
  rw [Dmac.heapRdataWrap, hx]
  generalize a.toNat % 4 = c at *
  interval_cases c
  · rw [Nat.zero_add]; rfl
  · exact hshift 1 24 rfl (by omega)
  · exact hshift 2 16 rfl (by omega)
  · exact hshift 3 8 rfl (by omega)

theorem txKeep_eq (hn : 14 ≤ n) (h1 : 1 ≤ k) (hk : k ≤ txBeats a n) :
    ∃ m : Fin 4, txKeep a n k = keepMask m ∧ m.val + 1 = min (txPos a (k + 1)) n - txPos a k := by
  have hh := @headLen_pos a
  rcases Nat.lt_or_ge 1 k with h2 | h2
  · have hlast := last_iff hn hk
    have hp := txPos_succ (a := a) h2
    have hlt := txPos_lt hn hk
    rw [txKeep, if_neg (by omega)]
    rcases Nat.lt_or_ge k (txBeats a n) with h3 | h3
    · have := txPos_lt (a := a) hn (by omega : k + 1 ≤ txBeats a n)
      exact ⟨3, by rw [if_neg (by omega)]; rfl, by rw [Nat.min_eq_left (by omega), hp]; simp⟩
    · -- between five and eight bytes are left before the last beat
      have hL := txBeats_ge (a := a) hn
      have hp' : txPos a k = txPos a (k - 1) + 4 := by
        have := txPos_succ (a := a) (k := k - 1) (by omega)
        rwa [Nat.sub_add_cancel h1] at this
      have hx := hlast.2 (by omega)
      obtain ⟨x, hxe⟩ : ∃ x, n - txPos a (k - 1) = x := ⟨_, rfl⟩
      rw [hxe] at hx ⊢
      have h5 : 5 ≤ x := by omega
      have hc : min (txPos a (k + 1)) n - txPos a k = x - 4 := by omega
      rw [hc]
      interval_cases x
      · exact ⟨0, rfl, rfl⟩
      · exact ⟨1, rfl, rfl⟩
      · exact ⟨2, rfl, rfl⟩
      · exact ⟨3, rfl, rfl⟩
  · obtain rfl : k = 1 := by omega
    have hc : min (txPos a (1 + 1)) n - txPos a 1 = headLen a := by simp [txPos]; omega
    have hx : (a.extractLsb' 0 2).toNat = a.toNat % 4 := by simp [BitVec.extractLsb'_toNat]
    have h4 : a.toNat % 4 < 4 := Nat.mod_lt _ (by omega)
    rw [hc, txKeep, if_pos rfl, Dmac.addr2keep, hx, headLen]
    generalize a.toNat % 4 = c at *
    interval_cases c
    · exact ⟨3, rfl, rfl⟩
    · exact ⟨2, rfl, rfl⟩
    · exact ⟨1, rfl, rfl⟩
    · exact ⟨0, rfl, rfl⟩

theorem TxStart.txAxis_eq (w : TxStart a n h) (h1 : 1 ≤ k) (hk : k ≤ txBeats a n) :
    (run inp h (k + 4)).txAxis =
      ⟨if k = 1 then Dmac.heapRdataWrap a ((run inp h k).ram.word (a + BitVec.ofNat 32 (txPos a k)))
        else (run inp h k).ram.word (a + BitVec.ofNat 32 (txPos a k)),
        txKeep a n k, decide (k = txBeats a n)⟩ := by
  obtain ⟨m, rfl⟩ : ∃ m, k = m + 1 := ⟨k - 1, by omega⟩
  have hout := (w.txAt inp m (by omega)).out
  rw [txOut, if_pos hk] at hout
  have hkeep : (run inp h (m + 1 + 4)).dmac.tx.txAxisTkeep = txKeep a n (m + 1) := by
    show (run inp h (m + 1)).dmac.out.rtxAxisTkeep = _
    rw [hout]
  have hlast : (run inp h (m + 1 + 4)).dmac.tx.txAxisTlast = decide (m + 1 = txBeats a n) := by
    show (run inp h (m + 1)).dmac.out.rtxAxisTlast = _
    rw [hout]
  have hdata : (run inp h (m + 1 + 4)).dmac.tx.txAxisTdata =
      if m + 1 = 1 then Dmac.heapRdataWrap a ((run inp h (m + 1)).ram.word (a + BitVec.ofNat 32 (txPos a (m + 1))))
      else (run inp h (m + 1)).ram.word (a + BitVec.ofNat 32 (txPos a (m + 1))) := by
    show (if (run inp h (m + 1 + 3)).mux.dmaHeapReady (run inp h (m + 1 + 3)).ram.memReady then
      Dmac.heapRdataWrap (run inp h (m + 1 + 3)).dmac.heapAddrM
        ((run inp h (m + 1 + 3)).mux.dmaHeapRdata (run inp h (m + 1 + 3)).ram.memRdata)
      else (run inp h (m + 1 + 3)).mux.dmaHeapRdata (run inp h (m + 1 + 3)).ram.memRdata) = _
    rw [w.heapReady hk, w.heapRdata h1 hk, (w.txAt inp (m + 3) (by omega)).heapAddrM (by omega)]
    simp only [decide_eq_true_eq]
  rw [txAxis, hkeep, hlast, hdata]

variable (inp) in
theorem TxStart.kept (w : TxStart a n h) (hw : a.toNat + n ≤ 2 ^ 32) (h1 : 1 ≤ k) (hk : k ≤ txBeats a n) :
    (run inp h (k + 4)).txAxis.kept =
      (List.range (min (txPos a (k + 1)) n - txPos a k)).map fun l =>
        h.ram.byte (a + BitVec.ofNat 32 (txPos a k + l)) := by
  obtain ⟨m, hm, hc⟩ := txKeep_eq (a := a) w.long h1 hk
  have hh := @headLen_pos a
  rw [w.txAxis_eq h1 hk, Beat.kept_eq (k := m) hm, hc]
  refine List.map_congr_left fun l hl => ?_
  rw [List.mem_range] at hl
  have hlt : txPos a k + l < n := by omega
  have hy : (a + BitVec.ofNat 32 (txPos a k)).toNat = a.toNat + txPos a k := by
    rw [BitVec.toNat_add, BitVec.toNat_ofNat]; omega
  rw [BitVec.ofNat_add, ← BitVec.add_assoc, ← w.byte inp _ k (by omega)]
  rcases Nat.lt_or_ge 1 k with h2 | h2
  · -- from the second beat on the address is at a word boundary
    have hal : (a + BitVec.ofNat 32 (txPos a k)).toNat % 4 = 0 := by
      rw [hy, txPos, if_neg (by omega), headLen]; omega
    have hp := txPos_succ (a := a) h2
    dsimp only
    rw [if_neg (by omega), ← Ram64KB.byteLane_word_add _ _ (by omega), hal, Nat.zero_add]
  · obtain rfl : k = 1 := by omega
    have h0 : txPos a 1 = 0 := rfl
    have hl' : l < headLen a := by
      have : min (txPos a (1 + 1)) n - txPos a 1 = headLen a := by
        have := w.long
        simp [txPos]; omega
      omega
    dsimp only
    rw [if_pos rfl, h0, BitVec.add_zero, byteLane_heapRdataWrap hl',
      Ram64KB.byteLane_word_add _ _ (by rw [headLen] at hl'; omega)]

/-! ### The whole transmission -/

/-- Without a new request nothing is read after the last beat. -/
theorem TxStart.not_reading (w : TxStart a n h) {m : Nat}
    (hno : ∀ j, txBeats a n + 3 ≤ j → j < m → (run inp h j).dmac.txStaValid = false) :
    ∀ j, txBeats a n + 1 ≤ j → j ≤ m →
      (run inp h j).dmac.cur ≠ .read ∧ (run inp h j).dmac.out.rtxAxisTvalid = false := by
  intro j
  induction j with
  | zero => omega
  | succ j ih =>
    intro h1 hm
    rcases Nat.lt_or_ge j (txBeats a n + 3) with h2 | h2
    · have r := w.txAt inp j (by omega)
      constructor
      · rw [r.cur, txCur, if_neg (by omega)]; split_ifs <;> decide
      · rw [r.out, txOut, if_neg (by omega)]; split_ifs <;> rfl
    · have hn : (run inp h j).nxtState ≠ .read := by
        intro hn
        rcases of_nxtState_read hn with ⟨-, -, hv⟩ | ⟨hc, -⟩
        · rw [hno j h2 (by omega)] at hv; cases hv
        · exact (ih (by omega) (by omega)).1 hc
      have hempty : TxEmpty 1 (run inp h (j + 1)).dmac := (txEmpty_zero (run inp h j).dmac).step hn
      exact ⟨hn, hempty.1 (by omega)⟩

theorem TxStart.tvalid (w : TxStart a n h) {m : Nat}
    (hno : ∀ j, txBeats a n + 3 ≤ j → j < m → (run inp h j).dmac.txStaValid = false) {c : Nat} (hc : c < m) :
    (run inp h c).dmac.tx.txAxisTvalid = decide (5 ≤ c ∧ c ≤ txBeats a n + 4) := by
  obtain ⟨h1, h2, h3, h4, h5⟩ := w.empty
  match c, hc with
  | 0, _ => exact (h5 (by omega)).trans (by simp)
  | 1, _ => exact (h4 (by omega)).trans (by simp)
  | 2, _ => exact (h3 (by omega)).trans (by simp)
  | 3, _ => exact (h2 (by omega)).trans (by simp)
  | 4, _ => exact (h1 (by omega)).trans (by simp)
  | c + 5, hc =>
    show (run inp h (c + 1)).dmac.out.rtxAxisTvalid = _
    rcases Nat.lt_or_ge c (txBeats a n) with hlt | hge
    · rw [(w.txAt inp c (by omega)).out, txOut, if_pos (by omega)]
      exact (decide_eq_true (by omega)).symm
    · rw [(w.not_reading hno (c + 1) (by omega) (by omega)).2, decide_eq_false (by omega)]

theorem TxStart.emitted_eq (w : TxStart a n h) :
    ∀ m, (∀ j, txBeats a n + 3 ≤ j → j < m → (run inp h j).dmac.txStaValid = false) →
      emitted inp h m = (List.range (min (m - 5) (txBeats a n))).map fun j => (run inp h (j + 5)).txAxis := by
  intro m
  induction m with
  | zero => exact fun _ => rfl
  | succ m ih =>
    intro hno
    have hstep : emitted inp h (m + 1) =
        if (run inp h m).dmac.tx.txAxisTvalid then emitted inp h m ++ [(run inp h m).txAxis] else emitted inp h m := rfl
    rw [hstep, w.tvalid hno (Nat.lt_succ_self m), ih fun j h1 h2 => hno j h1 (by omega)]
    by_cases hc : 5 ≤ m ∧ m ≤ txBeats a n + 4
    · obtain ⟨j, rfl⟩ : ∃ j, m = j + 5 := ⟨m - 5, by omega⟩
      rw [if_pos (by simpa using hc), Nat.min_eq_left (by omega), Nat.min_eq_left (by omega),
        show j + 5 + 1 - 5 = j + 1 by omega, Nat.add_sub_cancel, List.range_succ, List.map_append]
      rfl
    · rw [if_neg (by simpa using hc), show min (m + 1 - 5) (txBeats a n) = min (m - 5) (txBeats a n) by omega]

theorem TxStart.bytes (w : TxStart a n h) (hw : a.toNat + n ≤ 2 ^ 32) : ∀ m, m ≤ txBeats a n →
    ((List.range m).map fun j => (run inp h (j + 5)).txAxis).flatMap Beat.kept =
      (List.range (min (txPos a (m + 1)) n)).map fun j => h.ram.byte (a + BitVec.ofNat 32 j) := by
  intro m
  induction m with
  | zero => intro _; simp [txPos]
  | succ m ih =>
    intro hm
    have hlt := txPos_lt (a := a) w.long hm
    have hle : txPos a (m + 1) ≤ min (txPos a (m + 1 + 1)) n := by
      have : txPos a (m + 1) ≤ txPos a (m + 1 + 1) := by simp only [txPos]; split_ifs <;> omega
      omega
    rw [List.range_succ, List.map_append, List.flatMap_append, ih (by omega), Nat.min_eq_left (by omega)]
    have hkept := w.kept inp hw (by omega : 1 ≤ m + 1) hm
    simp only [List.map_cons, List.map_nil, List.flatMap_cons, List.flatMap_nil, List.append_nil]
    rw [show m + 5 = m + 1 + 4 by omega, hkept]
    conv_rhs => rw [show min (txPos a (m + 1 + 1)) n = txPos a (m + 1) + (min (txPos a (m + 1 + 1)) n - txPos a (m + 1))
      by omega, List.range_add, List.map_append, List.map_map]
    rfl

variable (inp) in
theorem TxStart.isPacket (w : TxStart a n h) (hw : a.toNat + n ≤ 2 ^ 32) :
    IsPacket ((List.range (txBeats a n)).map fun j => (run inp h (j + 5)).txAxis)
      ((List.range n).map fun j => h.ram.byte (a + BitVec.ofNat 32 j)) := by
  have hL := txBeats_ge (a := a) w.long
  have haxis : ∀ j, j < txBeats a n → (run inp h (j + 5)).txAxis.tkeep = txKeep a n (j + 1) ∧
      (run inp h (j + 5)).txAxis.tlast = decide (j + 1 = txBeats a n) := by
    intro j hj
    rw [show j + 5 = j + 1 + 4 by omega, w.txAxis_eq (by omega) (by omega)]
    exact ⟨rfl, rfl⟩
  refine ⟨⟨txBeats a n - 1, ?_⟩, ?_, ?_⟩
  · obtain ⟨k, hk⟩ : ∃ k, txBeats a n = k + 1 := ⟨txBeats a n - 1, by omega⟩
    rw [hk, List.range_succ, List.map_append, List.map_append, List.map_map]
    congr 1
    · rw [Nat.add_sub_cancel, List.eq_replicate_iff]
      refine ⟨by simp, fun b hb => ?_⟩
      obtain ⟨j, hj, rfl⟩ := List.mem_map.1 hb
      rw [List.mem_range] at hj
      exact ((haxis j (by omega)).2).trans (decide_eq_false (by omega))
    · simp only [List.map_cons, List.map_nil]
      rw [(haxis k (by omega)).2, decide_eq_true hk.symm]
  · intro b hb
    obtain ⟨j, hj, rfl⟩ := List.mem_map.1 hb
    rw [List.mem_range] at hj
    obtain ⟨m, hm, -⟩ := txKeep_eq (a := a) w.long (by omega : 1 ≤ j + 1) (by omega)
    exact ⟨m, (haxis j hj).1.trans hm⟩
  · have hend : n ≤ txPos a (txBeats a n + 1) := by
      have := @headLen_pos a
      have := w.long
      rw [txPos, if_neg (by omega), txBeats]; omega
    rw [w.bytes hw _ (Nat.le_refl _), Nat.min_eq_right hend]

variable (inp) in
theorem TxStart.reads (w : TxStart a n h) (hw : a.toNat + n ≤ 2 ^ 32) {j : Nat} (hj : j < n) :
    ∃ k, 1 ≤ k ∧ k ≤ txBeats a n ∧ ((run inp h k).ramPort (inp k)).valid = true ∧
      ((run inp h k).ramPort (inp k)).wstrb = 0 ∧
      ((run inp h k).ramPort (inp k)).addr.toNat / 4 = (a.toNat + j) / 4 := by
  have hh := @headLen_pos a
  have hl := w.long
  obtain ⟨k, h1, hk, hpos⟩ : ∃ k, 1 ≤ k ∧ k ≤ txBeats a n ∧ (a.toNat + txPos a k) / 4 = (a.toNat + j) / 4 := by
    rcases Nat.lt_or_ge j (headLen a) with hlt | hge
    · refine ⟨1, Nat.le_refl 1, by simp only [txBeats]; omega, ?_⟩
      rw [headLen] at hlt
      rw [show txPos a 1 = 0 from rfl]; omega
    · refine ⟨(j - headLen a) / 4 + 2, by omega, by simp only [txBeats]; omega, ?_⟩
      have hp : txPos a ((j - headLen a) / 4 + 2) = headLen a + 4 * ((j - headLen a) / 4) := by simp [txPos]
      rw [hp]
      simp only [headLen] at hge ⊢; omega
  obtain ⟨m, rfl⟩ : ∃ m, k = m + 1 := ⟨k - 1, by omega⟩
  have r := w.txAt inp m (by omega)
  have hlt := txPos_lt (a := a) hl hk
  refine ⟨m + 1, h1, hk, ?_⟩
  rw [ramPort_granted r.busReady, dmaPort, DmaHeap.dmaPort, r.out, txOut, if_pos hk]
  refine ⟨rfl, rfl, ?_⟩
  show (a + BitVec.ofNat 32 (txPos a (m + 1))).toNat / 4 = _
  rw [BitVec.toNat_add, BitVec.toNat_ofNat, Nat.mod_eq_of_lt (by omega : txPos a (m + 1) < 2 ^ 32),
    Nat.mod_eq_of_lt (by omega), hpos]

variable (inp) in
theorem TxStart.txStaReady (w : TxStart a n h) (hk : k ≤ txBeats a n + 2) :
    (run inp h k).dmac.out.txStaReady = decide (k = txBeats a n + 2) := by
  cases k with
  | zero => rw [decide_eq_false (by omega)]; exact (w.inv.abus w.cur).2.2.2
  | succ k =>
    rw [(w.txAt inp k (by omega)).out, txOut]
    split_ifs
    · exact (decide_eq_false (by omega)).symm
    · rfl

variable (inp) in
/-- The request is pending until the last beat has been read, and the controller takes it back then. -/
theorem TxStart.request (w : TxStart a n h) :
    ((∀ k, k ≤ txBeats a n + 2 → KeepsRequest (inp k) (run inp h k)) →
      ∀ k, k ≤ txBeats a n + 2 → (run inp h k).dmac.txStaValid = true) ∧
    (run inp h (txBeats a n + 3)).dmac.txStaValid = false := by
  refine ⟨fun hreq k => ?_, ?_⟩
  · induction k with
    | zero =>
      intro _
      rcases of_nxtState_read w.nxt with ⟨-, -, hv⟩ | ⟨hc, -⟩
      · exact hv
      · rw [w.cur] at hc; cases hc
    | succ k ih =>
      intro hk
      have hready : (run inp h k).dmac.out.txStaReady = false := by
        rw [w.txStaReady inp (by omega), decide_eq_false (by omega)]
      exact txStaValid_step (hreq k (by omega)) hready (ih (by omega))
  · show ((if (run inp h (txBeats a n + 2)).dmac.out.txStaReady then _ else _) != (0 : BitVec 8)) = false
    rw [w.txStaReady inp (Nat.le_refl _), decide_eq_true rfl]; rfl

/-- **A transmission gathers the buffer.** After a grant with `heap_addr = a` and `BD_frame_len = n`:
until a new request is pending the transfers on `tx_axis` are one packet with the bytes of the buffer;
every byte is read before the controller clears `tx_BD_sta`, and it does clear it. -/
theorem transmission_gathers {t : Nat} (hr : h.AfterReset sched) (hc : (run inp h t).dmac.cur = .abus)
    (hn : (run inp h t).nxtState = .read) (ha : (run inp h t).dmac.out.heapAddr = a)
    (hlen : (run inp h t).dmac.out.bdFrameLen = BitVec.ofNat 32 n) (h14 : 14 ≤ n)
    (hheap : 0x10000 ≤ a.toNat ∧ a.toNat + n ≤ 0x20000) :
    (∀ m, txBeats a n + 5 ≤ m →
      (∀ j, txBeats a n + 3 ≤ j → j < m → (run inp h (t + j)).dmac.txStaValid = false) →
      IsPacket (emitted (fun j => inp (t + j)) (run inp h t) m)
        ((List.range n).map fun j => (run inp h t).ram.byte (a + BitVec.ofNat 32 j))) ∧
    (∀ j, j < n → ∃ k, 1 ≤ k ∧ k ≤ txBeats a n ∧ ((run inp h (t + k)).ramPort (inp (t + k))).valid = true ∧
      ((run inp h (t + k)).ramPort (inp (t + k))).wstrb = 0 ∧
      ((run inp h (t + k)).ramPort (inp (t + k))).addr.toNat / 4 = (a.toNat + j) / 4) ∧
    ((∀ k, k ≤ txBeats a n + 2 → KeepsRequest (inp (t + k)) (run inp h (t + k))) →
      ∀ k, k ≤ txBeats a n + 2 → (run inp h (t + k)).dmac.txStaValid = true) ∧
    (run inp h (t + (txBeats a n + 3))).dmac.txStaValid = false := by
  have w : TxStart a n (run inp h t) := ⟨run_txInv hr t, hc, hn, ha, hlen, h14, by omega⟩
  simp only [run_add inp h t]
  refine ⟨fun m hm hno => ?_, fun j hj => w.reads (fun j => inp (t + j)) (by omega) hj,
    w.request fun j => inp (t + j)⟩
  rw [w.emitted_eq m hno, Nat.min_eq_right (by omega)]
  exact w.isPacket _ (by omega)

/-- The descriptor is programmed, the controller is switched on and the frame is requested to be sent. -/
def sendFrom (a n : BitVec 32) (t : Nat) : HeapIn :=
  if t = 0 then ⟨.idle, .store 0x80000080 a⟩ else if t = 2 then ⟨.idle, .store 0x800000a0 n⟩
  else if t = 4 then ⟨.idle, .store 0x800000c0 1⟩ else if t = 6 then ⟨.idle, .store 0x800000cc 1⟩
  else ⟨.idle, .idle⟩

theorem transmission_gathers_misaligned :
    (∀ m, 21 ≤ m →
      (∀ j, 19 ≤ j → j < m → (run (sendFrom 0x00010801 61) (start []) (9 + j)).dmac.txStaValid = false) →
      IsPacket (emitted (fun j => sendFrom 0x00010801 61 (9 + j)) (run (sendFrom 0x00010801 61) (start []) 9) m)
        ((List.range 61).map fun j =>
          (run (sendFrom 0x00010801 61) (start []) 9).ram.byte (0x00010801 + BitVec.ofNat 32 j))) ∧
    (run (sendFrom 0x00010801 61) (start []) (9 + 19)).dmac.txStaValid = false := by
  have w := @transmission_gathers (start []) (sendFrom 0x00010801 61) [] 0x00010801 61 9
    (start_afterReset []) (by decide +kernel) (by decide +kernel) (by decide +kernel) (by decide +kernel) (by decide)
    (by decide)
  rw [show txBeats 0x00010801 61 = 16 by decide] at w
  exact ⟨w.1, w.2.2.2⟩

end Heap

end Picorv32Soc
