import Picorv32Soc.Eth.GmiiRx

/-!
# The link

Both ends of a link are the same design: what one transmitter sends, another receiver hears. Every frame
comes out as it went in, filled up to the minimum length and marked as good (`link_delivers`). A frame that
differs from the one sent within 32 consecutive bits is marked as bad (`burst_marked`).
-/

namespace Picorv32Soc
open Clocked GmiiRx

/-- A frame as the receiver hands it on. -/
def packet (bad : Bool) : List Byte → List AxisByte
  | [] => []
  | [b] => [⟨b, true, bad⟩]
  | b :: c :: m => ⟨b, false, false⟩ :: packet bad (c :: m)

/-- A frame without line errors is cut before its check sequence, which decides on it. -/
theorem verdict_clean {m q : List Byte} (hm : m ≠ []) (hq : q.length = 4) (done : List Byte) :
    verdict done ((m ++ q).map Gmii.byte) = packet (!decide (q = fcs (done ++ m))) m := by
  induction m generalizing done with
  | nil => exact absurd rfl hm
  | cons b m ih =>
    have hany : ∀ l : List Byte, (l.map Gmii.byte).any Gmii.er = false := fun l => by
      rw [List.any_eq_false]
      intro x hx
      obtain ⟨c, _, rfl⟩ := List.mem_map.1 hx
      exact Bool.false_ne_true
    have hdata : ∀ l : List Byte, (l.map Gmii.byte).map Gmii.data = l := fun l => by
      rw [List.map_map]
      exact List.map_id l
    cases m with
    | nil =>
      rw [List.cons_append, List.nil_append, List.map_cons, verdict, if_pos (by simp [hq]), hany, hdata]
      rfl
    | cons c m =>
      rw [List.cons_append, List.map_cons, verdict, if_neg (by simp [hq]), ih (List.cons_ne_nil c m)]
      rw [List.append_assoc]
      rfl

/-! ### From end to end -/

theorem padded_length (f : List Byte) : 60 ≤ (padded f).length := by
  rw [padded, List.length_append, List.length_replicate]
  omega

/-- Bytes on a line without errors, as the transmitter puts them there, and then idle cycles. -/
def onWire (body : List Byte) (n : Nat) : List Gmii := (preamble ++ body).map Gmii.byte ++ List.replicate (n + 2) Gmii.idle

/-- What the transmitter puts on the line is a frame for the receiver. -/
def bytesFrame (body : List Byte) (h : 5 ≤ body.length) (n : Nat) : LineFrame where
  pre := (List.replicate 7 ethPre).map Gmii.byte
  body := body.map Gmii.byte
  gap := List.replicate (n + 2) Gmii.idle
  pre_ok x hx := by
    obtain ⟨b, hb, rfl⟩ := List.mem_map.1 hx
    rw [List.eq_of_mem_replicate hb]
    exact ⟨rfl, rfl⟩
  body_en x hx := by
    obtain ⟨b, _, rfl⟩ := List.mem_map.1 hx
    rfl
  body_long := by rwa [List.length_map]
  gap_idle x hx := by
    rw [List.eq_of_mem_replicate hx]
    rfl
  gap_long := by rw [List.length_replicate]; omega

theorem bytesFrame_line (body : List Byte) (h : 5 ≤ body.length) (n : Nat) : (bytesFrame body h n).line = onWire body n := by
  simp [LineFrame.line, bytesFrame, onWire, preamble]

/-- A frame of the transmitter. -/
def sentFrame (f : List Byte) (n : Nat) : LineFrame :=
  bytesFrame (padded f ++ fcs (padded f)) (by have := padded_length f; rw [List.length_append]; omega) n

theorem sentFrame_line (f : List Byte) (n : Nat) :
    (sentFrame f n).line = (wire f).map Gmii.byte ++ List.replicate (n + 2) Gmii.idle := by
  rw [sentFrame, bytesFrame_line, onWire, wire, List.append_assoc]

theorem verdict_sentFrame (f : List Byte) (n : Nat) : verdict [] (sentFrame f n).body = packet false (padded f) := by
  have hne : padded f ≠ [] := List.ne_nil_of_length_pos (Nat.lt_of_lt_of_le (by decide) (padded_length f))
  rw [sentFrame, bytesFrame, verdict_clean hne rfl, List.nil_append, decide_eq_true rfl]
  rfl

theorem hear_sent {g : Nat} (hg : 2 ≤ g) {fs : List (List Byte)} {line : List Gmii} (h : Sent g fs line) :
    ∃ s, Quiet s ∧ hear line (init, []) = (s, fs.flatMap fun f => packet false (padded f)) := by
  induction h with
  | start n =>
    exact hear_gap [] (fun x hx => by rw [List.eq_of_mem_replicate hx]; rfl) quiet_init
  | @frame fs line h f n hn ih =>
    obtain ⟨s₁, h₁, e₁⟩ := ih
    obtain ⟨k, rfl⟩ := Nat.exists_eq_add_of_le' (Nat.le_trans hg hn)
    obtain ⟨s₂, h₂, e₂⟩ := hear_frame (fs.flatMap fun f => packet false (padded f)) h₁ (sentFrame f k)
    refine ⟨s₂, h₂, ?_⟩
    rw [List.append_assoc, hear_append, e₁, ← sentFrame_line, e₂, verdict_sentFrame]
    simp

/-- Whenever the transmitter is idle, the receiver has handed on every frame the transmitter took, in order,
filled up and marked as good, and nothing else. -/
theorem link_delivers {g : Nat} (hg : 2 ≤ g) {inp : Nat → GmiiTxIn} (h : GmiiTx.Source g inp) {t : Nat}
    (hs : (run (GmiiTx.step GmiiTx.params) inp GmiiTx.init t).state = .idle) :
    (hear ((GmiiTx.seen inp t).line ++ [(run (GmiiTx.step GmiiTx.params) inp GmiiTx.init t).out]) (init, [])).2 =
      (GmiiTx.seen inp t).frames.flatMap fun f => packet false (padded f) := by
  obtain ⟨s, -, e⟩ := hear_sent hg (GmiiTx.sent_of_idle (by omega) h hs).2
  rw [e]

theorem link_delivers_short :
    (run (GmiiTx.step GmiiTx.params) GmiiTx.shortFrame GmiiTx.init 84).state = .idle ∧
    (hear ((GmiiTx.seen GmiiTx.shortFrame 84).line ++
        [(run (GmiiTx.step GmiiTx.params) GmiiTx.shortFrame GmiiTx.init 84).out]) (init, [])).2 =
      (GmiiTx.seen GmiiTx.shortFrame 84).frames.flatMap fun f => packet false (padded f) := by
  have hidle : (run (GmiiTx.step GmiiTx.params) GmiiTx.shortFrame GmiiTx.init 84).state = .idle :=
    GmiiTx.idle_after_last (t := 8) (by decide) GmiiTx.source_shortFrame (by decide) (by decide) (by decide)
  exact ⟨hidle, link_delivers (by decide) GmiiTx.source_shortFrame hidle⟩

/-! ### Errors on the line -/

/-- A check sequence fits when the remainder of the whole frame, with the sequence inverted, is zero. -/
theorem eq_fcs_iff_remainder {m q : List Byte} (hq : q.length = 4) :
    q = fcs m ↔ Crc.bits crcPoly 0xFFFFFFFF (frameBits m ++ (frameBits q).map not) = 0 := by
  match q, hq with
  | [b3, b2, b1, b0], _ =>
    have hbits : (frameBits [b3, b2, b1, b0]).map not = Crc.bitsOf (~~~ (b0 ++ b1 ++ b2 ++ b3)) := by
      rw [Crc.bitsOf_not, Crc.bitsOf_append, Crc.bitsOf_append, Crc.bitsOf_append]
      simp [frameBits]
    rw [← eq_fcs_iff, hbits, Crc.bits_append, ← crcOf_eq]
    rw [show (0 : BitVec 32) = 0#32 from rfl, Crc.bits_bitsOf_eq_zero_iff (by decide)]
    constructor
    · intro h; rw [h, BitVec.not_not]
    · intro h; rw [h, BitVec.not_not]

theorem frameBits_length (m : List Byte) : (frameBits m).length = 8 * m.length := by
  induction m with
  | nil => rfl
  | cons b m ih =>
    rw [frameBits, List.flatMap_cons, List.length_append, Crc.length_bitsOf, ← frameBits, ih, List.length_cons]
    omega

theorem frameBits_append (m q : List Byte) : frameBits (m ++ q) = frameBits m ++ frameBits q := List.flatMap_append

/-- Inverting both check sequences does not change where two frames differ. -/
theorem zipWith_xor_not {a b c d : List Bool} (h : a.length = b.length) :
    List.zipWith xor (a ++ c.map not) (b ++ d.map not) = List.zipWith xor (a ++ c) (b ++ d) := by
  rw [List.zipWith_append h, List.zipWith_append h, List.zipWith_map]
  congr 2
  funext x y
  cases x <;> cases y <;> rfl

/-- Two frames with fitting check sequences do not differ by a burst of up to 32 bits. -/
theorem not_burst {m m' q q' : List Byte} (hm : m.length = m'.length) (hq : q.length = 4) (hq' : q'.length = 4)
    (h : q = fcs m) (h' : q' = fcs m') {n k : Nat} {ds : List Bool} (hds : ds.length ≤ 32) (hne : true ∈ ds) :
    List.zipWith xor (frameBits (m ++ q)) (frameBits (m' ++ q')) ≠
      List.replicate n false ++ ds ++ List.replicate k false := by
  intro hdiff
  have hlen : (frameBits m).length = (frameBits m').length := by rw [frameBits_length, frameBits_length, hm]
  have hlen' : (frameBits m ++ (frameBits q).map not).length = (frameBits m' ++ (frameBits q').map not).length := by
    simp only [List.length_append, List.length_map, frameBits_length, hm, hq, hq']
  have hsum := Crc.bits_xor (P := crcPoly) hlen' 0xFFFFFFFF 0xFFFFFFFF
  rw [(eq_fcs_iff_remainder hq).1 h, (eq_fcs_iff_remainder hq').1 h', zipWith_xor_not hlen, ← frameBits_append,
    ← frameBits_append, hdiff] at hsum
  exact Crc.bits_burst_ne (by decide) hds hne n k hsum

/-- The verdict on a frame with a burst of errors in its bytes. -/
theorem verdict_burst {m body : List Byte} (hm : m ≠ []) (hlen : body.length = m.length + 4) {n k : Nat} {ds : List Bool}
    (hdiff : List.zipWith xor (frameBits (m ++ fcs m)) (frameBits body) =
      List.replicate n false ++ ds ++ List.replicate k false) (hds : ds.length ≤ 32) (hne : true ∈ ds) :
    verdict [] (body.map Gmii.byte) = packet true (body.take m.length) := by
  obtain ⟨m', q, rfl, hm', hq⟩ : ∃ m' q, body = m' ++ q ∧ m'.length = m.length ∧ q.length = 4 :=
    ⟨_, _, (List.take_append_drop m.length body).symm, by simp [hlen], by simp [hlen]⟩
  have hne' : m' ≠ [] := List.ne_nil_of_length_pos (by rw [hm']; exact List.length_pos_of_ne_nil hm)
  have hbad : q ≠ fcs m' := fun h => not_burst hm'.symm rfl hq rfl h hds hne hdiff
  rw [verdict_clean hne' hq, List.nil_append, decide_eq_false hbad, List.take_left' hm']
  rfl

/-- A frame that was changed on the line within 32 consecutive bits is handed on marked as bad, whatever
came before it. -/
theorem burst_marked (i : Nat) (fs : List LineFrame) {f body : List Byte} (hlen : body.length = (padded f).length + 4)
    {n k : Nat} {ds : List Bool}
    (hdiff : List.zipWith xor (frameBits (padded f ++ fcs (padded f))) (frameBits body) =
      List.replicate n false ++ ds ++ List.replicate k false) (hds : ds.length ≤ 32) (hne : true ∈ ds) (g : Nat) :
    (hear (List.replicate i Gmii.idle ++ fs.flatMap LineFrame.line ++ onWire body g) (init, [])).2 =
      (hear (List.replicate i Gmii.idle ++ fs.flatMap LineFrame.line) (init, [])).2 ++
        packet true (body.take (padded f).length) := by
  have hpad := padded_length f
  obtain ⟨s₁, h₁, e₁⟩ := hear_frames_init i fs
  obtain ⟨s₂, -, e₂⟩ := hear_frame (fs.flatMap fun f => verdict [] f.body) h₁ (bytesFrame body (by omega) g)
  have hv : verdict [] (bytesFrame body (by omega) g).body = packet true (body.take (padded f).length) :=
    verdict_burst (List.ne_nil_of_length_pos (by omega)) hlen hdiff hds hne
  rw [hear_append, e₁, ← bytesFrame_line body (by omega) g, e₂, hv]

theorem zipWith_xor_self (l : List Bool) : List.zipWith xor l l = List.replicate l.length false := by
  induction l with
  | nil => rfl
  | cons b l ih => rw [List.zipWith_cons_cons, ih, Bool.xor_self, List.length_cons, List.replicate_succ]

/-- One bit of an empty frame. -/
theorem burst_marked_bit :
    (hear (List.replicate 3 Gmii.idle ++ [].flatMap LineFrame.line ++
        onWire (1 :: (List.replicate 59 0 ++ fcs (padded []))) 10) (init, [])).2 =
      (hear (List.replicate 3 Gmii.idle ++ [].flatMap LineFrame.line) (init, [])).2 ++
        packet true ((1 :: (List.replicate 59 0 ++ fcs (padded []))).take (padded []).length) := by
  have hdiff : List.zipWith xor (frameBits (padded [] ++ fcs (padded [])))
      (frameBits (1 :: (List.replicate 59 0 ++ fcs (padded [])))) =
      List.replicate 0 false ++ [true] ++
        List.replicate (7 + (frameBits (List.replicate 59 0 ++ fcs (padded []))).length) false := by
    rw [show padded [] ++ fcs (padded []) = 0 :: (List.replicate 59 0 ++ fcs (padded [])) from rfl]
    generalize List.replicate 59 0 ++ fcs (padded []) = m
    have hlen : (Crc.bitsOf (0 : Byte)).length = (Crc.bitsOf (1 : Byte)).length := by simp
    rw [frameBits, frameBits, List.flatMap_cons, List.flatMap_cons, List.zipWith_append hlen, ← frameBits, zipWith_xor_self,
      List.replicate_add]
    rfl
  exact burst_marked 3 [] (f := []) (by simp [padded, fcs]) hdiff (by decide) (by decide) 10

end Picorv32Soc
