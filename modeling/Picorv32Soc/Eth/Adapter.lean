import Picorv32Soc.Axis
import Picorv32Soc.Eth.AsyncFifo
import Picorv32Soc.Eth.GmiiRx
import Picorv32Soc.Skid

/-!
# The width adapter of the receive FIFO (`rtl/eth/axis_adapter.v`)

In `rx_fifo` the adapter stands in front of the FIFO, on its write clock, and puts the bytes of the media access
controller together into words of four: `EXPAND_BUS` is 1, `SEGMENT_COUNT` 4, `S_KEEP_ENABLE` 0. A word is complete
with its fourth byte or with the last byte of a frame, and goes out through a skid buffer. `pack` says which words
come of which bytes, and `Carries.step` that the adapter delivers these words, in order, from the bytes it accepts.

The branches for the other widths, `tid` and `tdest` are not there in this instance and are left out.
-/

namespace Picorv32Soc
open Bits

/-- A word of the stream: data, and `tkeep`. -/
abbrev StreamWord := AxisWord (BitVec 32 × BitVec 4)

def StreamWord.beat (w : StreamWord) : Beat := ⟨w.data.1, w.data.2, w.tlast⟩

inductive AdapterState
  | idle
  | transferIn
  | transferOut
deriving DecidableEq

structure Adapter where
  state : AdapterState
  segmentCount : BitVec 2
  temp : StreamWord
  sAxisTready : Bool
  /-- The output datapath. -/
  out : Skid StreamWord

namespace Adapter

/-- The first byte of a word, zero-extended. -/
def firstByte (b : AxisByte) : StreamWord := ⟨(b.tdata.setWidth 32, 1), b.tlast, b.tuser⟩

/-- A further byte, in segment `c`. -/
def addByte (c : BitVec 2) (b : AxisByte) (w : StreamWord) : StreamWord :=
  ⟨(setLane w.data.1 c b.tdata, setBit w.data.2 c.toNat true), b.tlast, b.tuser⟩

/-- `s_axis_tready && s_axis_tvalid`; the input is `none` when `s_axis_tvalid` is low. -/
def accepted (i : Option AxisByte) (x : Adapter) : Option AxisByte := if x.sAxisTready then i else none

/-- `m_axis_tvalid_int`. -/
def intValid (x : Adapter) : Bool := x.state == .transferOut

/-- No word is in the registers, or it is leaving them. -/
def begins (i : Option AxisByte) (x : Adapter) : Adapter :=
  match x.accepted i with
  | some b =>
    let d := { x with temp := firstByte b, segmentCount := 1 }
    if b.tlast then { d with sAxisTready := false, state := .transferOut }
    else { d with sAxisTready := true, state := .transferIn }
  | none => { x with sAxisTready := true, state := .idle }

/-- The state machine; `early` is `m_axis_tready_int_early`. -/
def next (early : Bool) (i : Option AxisByte) (x : Adapter) : Adapter :=
  match x.state with
  | .idle => x.begins i
  | .transferIn =>
    match x.accepted i with
    | some b =>
      let d := { x with temp := addByte x.segmentCount b x.temp, segmentCount := x.segmentCount + 1 }
      if x.segmentCount == 3 || b.tlast then { d with sAxisTready := early, state := .transferOut }
      else { d with sAxisTready := true, state := .transferIn }
    | none => { x with sAxisTready := true, state := .transferIn }
  | .transferOut => if x.out.ready then x.begins i else { x with sAxisTready := false, state := .transferOut }

/-- An edge without reset. -/
def step (mAxisTready : Bool) (i : Option AxisByte) (x : Adapter) : Adapter :=
  { x.next (x.out.early mAxisTready x.intValid) i with out := x.out.step mAxisTready x.temp x.intValid }

/-- After reset. What is not reset has any value. -/
structure AfterReset (x : Adapter) : Prop where
  state : x.state = .idle
  tready : x.sAxisTready = false
  valid : x.out.valid = false
  tempValid : x.out.tempValid = false
  ready : x.out.ready = false

/-! ### Words from bytes -/

/-- `tkeep` of a word with `n` bytes. -/
def keepOf : Nat → BitVec 4
  | 0 => 0
  | n + 1 => setBit (keepOf n) n true

theorem keepOf_eq : ∀ k : Fin 4, keepOf (k.val + 1) = keepMask k := by decide

/-- Data and `tkeep` of the word with the bytes `bs`, the first one in the low lane. -/
def dataOf (bs : List Byte) : BitVec 32 × BitVec 4 := (joinLanes fun l => bs.getD l.toNat 0, keepOf bs.length)

/-- One byte more after the complete words and the bytes of a word that is not complete. -/
def packByte (p : List StreamWord × List Byte) (b : AxisByte) : List StreamWord × List Byte :=
  if p.2.length = 3 ∨ b.tlast then (p.1 ++ [⟨dataOf (p.2 ++ [b.tdata]), b.tlast, b.tuser⟩], []) else (p.1, p.2 ++ [b.tdata])

/-- The complete words of a sequence of bytes, and the bytes that are left. -/
def pack (bs : List AxisByte) : List StreamWord × List Byte := bs.foldl packByte ([], [])

theorem pack_concat (bs : List AxisByte) (b : AxisByte) : pack (bs ++ [b]) = packByte (pack bs) b := List.foldl_append

/-- A word as the receive stream has them: full, or the last one of its frame with its bytes in the low lanes. -/
def Whole (w : StreamWord) : Prop := ∃ k : Fin 4, w.data.2 = keepMask k ∧ (w.tlast = false → k.val = 3)

theorem pack_whole (bs : List AxisByte) : (pack bs).2.length ≤ 3 ∧ ∀ w ∈ (pack bs).1, Whole w := by
  induction bs using List.reverseRecOn with
  | nil => exact ⟨Nat.zero_le _, fun w hw => absurd hw List.not_mem_nil⟩
  | append_singleton bs b ih =>
    obtain ⟨hlen, hwhole⟩ := ih
    rw [pack_concat, packByte]
    split_ifs with hfull
    · refine ⟨Nat.zero_le _, fun w hw => ?_⟩
      rcases List.mem_append.1 hw with hw | hw
      · exact hwhole w hw
      · obtain rfl := List.mem_singleton.1 hw
        refine ⟨⟨(pack bs).2.length, by omega⟩, ?_, fun hl => ?_⟩
        · rw [← keepOf_eq, dataOf, List.length_append, List.length_singleton]
        · exact hfull.resolve_right (by rw [show b.tlast = false from hl]; exact Bool.false_ne_true)
    · push Not at hfull
      refine ⟨?_, hwhole⟩
      rw [List.length_append, List.length_singleton]
      omega

/-- Whole words with `tlast` on the last one only are the beats of a frame. -/
theorem exists_frame {l : List StreamWord} {w : StreamWord} (hl : ∀ v ∈ l, Whole v) (hinside : ∀ v ∈ l, v.tlast = false)
    (hw : Whole w) (hlast : w.tlast = true) : ∃ F : Frame, F.beatList = (l ++ [w]).map StreamWord.beat := by
  obtain ⟨k, hk, -⟩ := hw
  refine ⟨⟨l.map fun v => v.data.1, w.data.1, k⟩, List.ext_getElem (by simp [Frame.beatList, Frame.beats]) fun i hi hi' => ?_⟩
  have hi : i < l.length + 1 := by simpa [Frame.beatList, Frame.beats] using hi
  rw [List.getElem_map]
  simp only [Frame.beatList, List.getElem_map, List.getElem_range, Frame.beat, List.length_map]
  rcases Nat.lt_or_ge i l.length with h | h
  · obtain ⟨k', hk', hfull⟩ := hl _ (List.getElem_mem h)
    have hkeep : l[i].data.2 = 0xf := by
      rw [hk', show k' = Fin.last 3 from Fin.ext (hfull (hinside _ (List.getElem_mem h)))]
      rfl
    rw [List.getElem_append_left h, if_pos h, List.getD_eq_getElem _ _ (by simpa using h), List.getElem_map,
      decide_eq_false (by omega), StreamWord.beat, hkeep, hinside _ (List.getElem_mem h)]
  · obtain rfl : i = l.length := by omega
    rw [List.getElem_append_right h, if_neg (by omega), List.getD_eq_default _ _ (by simp), decide_eq_true (Nat.le_refl _)]
    simp [StreamWord.beat, hk, hlast]

theorem data_firstByte (b : AxisByte) : (firstByte b).data = dataOf [b.tdata] := by
  have hword : b.tdata.setWidth 32 = joinLanes fun l => [b.tdata].getD l.toNat 0 := by
    refine BitVec.eq_of_getLsbD_eq fun i hi => ?_
    have h0 : [b.tdata].getD (0 : BitVec 2).toNat 0 = b.tdata := rfl
    have h1 : [b.tdata].getD (1 : BitVec 2).toNat 0 = 0 := rfl
    have h2 : [b.tdata].getD (2 : BitVec 2).toNat 0 = 0 := rfl
    have h3 : [b.tdata].getD (3 : BitVec 2).toNat 0 = 0 := rfl
    rw [getLsbD_joinLanes, h0, h1, h2, h3, BitVec.getLsbD_setWidth, decide_eq_true hi, Bool.true_and]
    split_ifs with h8
    · rfl
    all_goals
      rw [BitVec.getLsbD_of_ge b.tdata i (by omega)]
      exact BitVec.getLsbD_zero.symm
  have hkeep : (1 : BitVec 4) = keepOf 1 := by decide
  rw [firstByte, hword, hkeep]
  rfl

theorem data_addByte {rest : List Byte} {c : BitVec 2} {w : StreamWord} (hc : c.toNat = rest.length)
    (hw : w.data = dataOf rest) (b : AxisByte) : (addByte c b w).data = dataOf (rest ++ [b.tdata]) := by
  have hlanes : Function.update (fun l : BitVec 2 => rest.getD l.toNat 0) c b.tdata =
      fun l => (rest ++ [b.tdata]).getD l.toNat 0 := by
    funext l
    by_cases hl : l = c
    · subst hl
      rw [Function.update_self, hc, List.getD_append_right _ _ _ _ (Nat.le_refl _), Nat.sub_self]
      rfl
    · rw [Function.update_of_ne hl]
      have hne : l.toNat ≠ rest.length := fun h => hl (BitVec.eq_of_toNat_eq (h.trans hc.symm))
      rcases Nat.lt_or_gt_of_ne hne with h | h
      · rw [List.getD_append _ _ _ _ h]
      · rw [List.getD_eq_default _ _ (by omega), List.getD_eq_default _ _ (by rw [List.length_append, List.length_singleton]; omega)]
  rw [addByte, hw, hc, dataOf, dataOf, List.length_append, List.length_singleton, keepOf]
  dsimp only
  rw [setLane_joinLanes, hlanes]

/-! ### What is in the adapter -/

/-- The bytes of a word that is not complete, and the complete word that has not left the registers. -/
inductive Phase (x : Adapter) : List Byte → List StreamWord → Prop
  | idle (hs : x.state = .idle) : Phase x [] []
  | transferIn (hs : x.state = .transferIn) (rest : List Byte) (hc : x.segmentCount.toNat = rest.length)
      (hpos : 1 ≤ rest.length) (hw : x.temp.data = dataOf rest) : Phase x rest []
  | transferOut (hs : x.state = .transferOut) (hready : x.sAxisTready = true → x.out.ready = true) : Phase x [] [x.temp]

/-- The adapter has accepted the bytes `bs` and delivered the words `ws`. -/
structure Carries (bs : List AxisByte) (ws : List StreamWord) (x : Adapter) : Prop where
  out : x.out.Ok
  words : ∃ inside, Phase x (pack bs).2 inside ∧ ws ++ x.out.held ++ inside = (pack bs).1

variable {x : Adapter} {bs : List AxisByte} {ws : List StreamWord} {i : Option AxisByte} {early : Bool}

theorem AfterReset.carries (h : x.AfterReset) : Carries [] [] x := by
  obtain ⟨state, count, temp, tready, ⟨out, valid, temp', tempValid, ready⟩⟩ := x
  obtain ⟨hs, -, hv, ht, hr⟩ := h
  dsimp only at hs hv ht hr
  subst hs hv ht hr
  exact ⟨.fresh _ _, [], .idle rfl, rfl⟩

theorem taken_of_ne (hs : x.state ≠ .transferOut) : x.out.taken x.temp x.intValid = [] := by
  rw [Skid.taken, intValid, beq_false_of_ne hs, Bool.and_false, if_neg Bool.false_ne_true]

/-- A word is begun: the first byte may be the last one of its frame. -/
theorem phase_begins (o : Skid StreamWord) (hrest : (pack bs).2 = []) :
    ∃ inside, Phase { x.begins i with out := o } (pack (bs ++ (x.accepted i).toList)).2 inside ∧
      (pack bs).1 ++ inside = (pack (bs ++ (x.accepted i).toList)).1 := by
  rw [begins]
  cases x.accepted i with
  | none =>
    refine ⟨[], ?_, ?_⟩
    · rw [Option.toList_none, List.append_nil, hrest]
      exact .idle rfl
    · rw [Option.toList_none, List.append_nil, List.append_nil]
  | some b =>
    dsimp only
    rw [Option.toList_some, pack_concat, packByte, hrest, List.nil_append]
    cases hl : b.tlast with
    | true =>
      refine ⟨[firstByte b], .transferOut rfl nofun, ?_⟩
      rw [if_pos (.inr rfl), ← data_firstByte]
      exact congrArg _ (congrArg (fun l => [AxisWord.mk _ l _]) hl)
    | false => exact ⟨[], .transferIn rfl [b.tdata] rfl (Nat.le_refl _) (data_firstByte b), List.append_nil _⟩

theorem phase_transferIn (hs : x.state = .transferIn) (o : Skid StreamWord) (ho : o.ready = early)
    (hc : x.segmentCount.toNat = (pack bs).2.length) (hpos : 1 ≤ (pack bs).2.length) (hw : x.temp.data = dataOf (pack bs).2) :
    ∃ inside, Phase { x.next early i with out := o } (pack (bs ++ (x.accepted i).toList)).2 inside ∧
      (pack bs).1 ++ inside = (pack (bs ++ (x.accepted i).toList)).1 := by
  have h3 : (x.segmentCount == 3) = true ↔ (pack bs).2.length = 3 := by
    rw [beq_iff_eq, ← hc, ← BitVec.toNat_inj]; rfl
  simp only [next, hs]
  cases x.accepted i with
  | none =>
    refine ⟨[], ?_, ?_⟩
    · rw [Option.toList_none, List.append_nil]
      exact .transferIn rfl _ hc hpos hw
    · rw [Option.toList_none, List.append_nil, List.append_nil]
  | some b =>
    dsimp only
    rw [Option.toList_some, pack_concat, packByte]
    by_cases hfull : (pack bs).2.length = 3 ∨ b.tlast = true
    · rw [if_pos hfull, if_pos (by rw [Bool.or_eq_true, h3]; exact hfull), ← data_addByte hc hw]
      exact ⟨[addByte x.segmentCount b x.temp], .transferOut rfl fun h => ho.trans h, rfl⟩
    · rw [if_neg hfull, if_neg (by rw [Bool.or_eq_true, h3]; exact hfull)]
      refine ⟨[], .transferIn rfl _ ?_ ?_ (data_addByte hc hw b), List.append_nil _⟩
      · have hlen := (pack_whole bs).1
        push Not at hfull
        show (x.segmentCount + 1).toNat = _
        rw [BitVec.toNat_add, hc, List.length_append, List.length_singleton, show (1 : BitVec 2).toNat = 1 from rfl]
        exact Nat.mod_eq_of_lt (by have := hfull.1; omega)
      · rw [List.length_append]; omega

/-- An edge: the words of the bytes accepted so far have been delivered or are in the adapter. -/
theorem Carries.step (h : Carries bs ws x) (mAxisTready : Bool) (i : Option AxisByte) :
    Carries (bs ++ (x.accepted i).toList) (ws ++ x.out.left mAxisTready) (x.step mAxisTready i) := by
  obtain ⟨inside, hphase, hwords⟩ := h.words
  refine ⟨h.out.step, ?_⟩
  have hheld : x.out.left mAxisTready ++ (x.step mAxisTready i).out.held = x.out.held ++ x.out.taken x.temp x.intValid :=
    Skid.held_step h.out
  -- whatever the state machine does, what the skid buffer takes was inside before
  suffices hnext : ∃ inside', Phase (x.step mAxisTready i) (pack (bs ++ (x.accepted i).toList)).2 inside' ∧
      ws ++ x.out.held ++ x.out.taken x.temp x.intValid ++ inside' = (pack (bs ++ (x.accepted i).toList)).1 by
    obtain ⟨inside', hphase', hwords'⟩ := hnext
    refine ⟨inside', hphase', ?_⟩
    calc ws ++ x.out.left mAxisTready ++ (x.step mAxisTready i).out.held ++ inside'
        = ws ++ (x.out.left mAxisTready ++ (x.step mAxisTready i).out.held) ++ inside' := by rw [List.append_assoc ws]
      _ = ws ++ (x.out.held ++ x.out.taken x.temp x.intValid) ++ inside' := congrArg (ws ++ · ++ inside') hheld
      _ = (pack (bs ++ (x.accepted i).toList)).1 := by rw [← hwords', ← List.append_assoc ws]
  generalize hrest : (pack bs).2 = rest at hphase
  cases hphase with
  | idle hs =>
    rw [List.append_nil] at hwords
    rw [taken_of_ne (by simp [hs]), List.append_nil, hwords, Adapter.step]
    simp only [next, hs]
    exact phase_begins _ hrest
  | transferIn hs rest hc hpos hw =>
    rw [List.append_nil] at hwords
    rw [taken_of_ne (by simp [hs]), List.append_nil, hwords, Adapter.step]
    subst hrest
    exact phase_transferIn hs _ rfl hc hpos hw
  | transferOut hs hready =>
    rw [Adapter.step]
    simp only [next, hs]
    cases hr : x.out.ready with
    | true =>
      have htaken : x.out.taken x.temp x.intValid = [x.temp] := by rw [Skid.taken, intValid, hs, hr]; rfl
      rw [htaken, hwords, if_pos rfl]
      exact phase_begins _ hrest
    | false =>
      have htaken : x.out.taken x.temp x.intValid = [] := by rw [Skid.taken, hr]; rfl
      have hnone : x.accepted i = none := by
        rw [accepted, if_neg]
        exact fun h => Bool.noConfusion ((hready h).symm.trans hr)
      rw [htaken, hnone, Option.toList_none, List.append_nil, List.append_nil, hrest, if_neg Bool.false_ne_true]
      exact ⟨[x.temp], .transferOut rfl nofun, hwords⟩

end Adapter

end Picorv32Soc
