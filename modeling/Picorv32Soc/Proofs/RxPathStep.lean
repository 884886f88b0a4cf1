import Picorv32Soc.RxPath

/-!
# Every step keeps the ownership invariant

One lemma for each action, and for `ethernetif_input` one for each statement.
-/

namespace Picorv32Soc
open Bits

namespace RxPath
variable {P : Type*} {pool : Pool P} {hold : BitVec 3 → Option P} {y : RxPath P}
  {g : Bool} {n : Nat} {e : BitVec 3 × Frame} {p : P} {j : BitVec 32}

/-! ### Facts about a state -/

/-- Actions of the others leave `ethernetif_input` where it is. -/
theorem Local.mono {y' : RxPath P} (l : Local pool hold y) (hpc : y'.drv.pc = y.drv.pc)
    (hb : y'.drv.dmaBdPbuf = y.drv.dmaBdPbuf) (ha : y'.drv.rxBdAdr = y.drv.rxBdAdr)
    (hq : y.drv.recvQ.len ≤ y'.drv.recvQ.len) (hh : ∀ e ∈ y.hist.pend.head?, e ∈ y'.hist.pend.head?) :
    Local pool hold y' := by
  unfold Local Armed Recorded at l ⊢
  rw [hpc, hb, ha]
  cases hc : y.drv.pc with
  | fetch => trivial
  | dispatch | alloc | pop =>
    rw [hc] at l
    obtain ⟨hlen, e, he, h⟩ := l
    exact ⟨hlen.trans_le hq, e, hh e he, h⟩
  | setPbuf | setAdr | clr =>
    rw [hc] at l
    obtain ⟨e, he, h⟩ := l
    exact ⟨e, hh e he, h⟩

namespace Owns

theorem exists_head (w : Owns pool hold true n y) : ∃ e l, y.hist.pend = e :: l :=
  List.exists_cons_of_length_pos w.given_le

theorem armed_of_mem (w : Owns pool hold g n y) (he : e ∈ y.hist.pend.drop g.toNat) :
    Armed pool hold y.drv e.1 := by
  refine w.armed e.1 fun hg x hx => ?_
  subst hg
  obtain ⟨x', l, hp⟩ := w.exists_head
  have hnd := w.ring.nodup
  rw [hp] at hx hnd he
  obtain rfl := Option.mem_some_iff.1 hx
  exact fun h => (List.nodup_cons.1 hnd).1 (h ▸ List.mem_map_of_mem he)

theorem armed_idx (w : Owns pool hold g n y) (hlt : y.hist.pend.length < 8) :
    Armed pool hold y.drv y.drv.ring.rxBdIdx := by
  refine w.armed _ fun _ x hx h => w.ring.idx_not_mem hlt ?_
  rw [← h]; exact List.mem_map_of_mem (List.mem_of_mem_head? hx)

theorem adr_ne (w : Owns pool hold g n y) {k k' : BitVec 3} (h : Armed pool hold y.drv k)
    (h' : Armed pool hold y.drv k') (hne : k ≠ k') : y.drv.rxBdAdr k ≠ y.drv.rxBdAdr k' := by
  obtain ⟨p, hp, -, ha⟩ := h
  obtain ⟨p', hp', -, ha'⟩ := h'
  rw [ha, ha']
  intro he
  obtain rfl := pool.injective he
  exact hne (w.inj k k' p hp hp')

/-- A reception does not touch the frames that wait. -/
theorem contents_land (w : Owns pool hold g n y) {a : BitVec 32} (ht : y.drv.target = some a) (f : Frame)
    (he : e ∈ y.hist.pend.drop g.toNat) :
    Function.update y.drv.buf a (some f) (y.drv.rxBdAdr e.1) = some e.2 := by
  have hlt := w.ring.room (by rw [ht]; rfl)
  have hne : e.1 ≠ y.drv.ring.rxBdIdx := fun h =>
    w.ring.idx_not_mem hlt (h ▸ List.mem_map_of_mem (List.mem_of_mem_drop he))
  rw [w.target a ht, Function.update_of_ne (w.adr_ne (w.armed_of_mem he) (w.armed_idx hlt) hne)]
  exact w.contents e he

/-! ### The controller -/

theorem head?_append {q : SlotQueue} (x : BitVec 3 × Frame) (he : e ∈ q.head?) : e ∈ (q ++ [x]).head? := by
  cases q with
  | nil => cases he
  | cons => exact he

theorem rxStart (w : Owns pool hold g n y) {s' : Driver P} (hs : y.drv.rxStart = some s') :
    Owns pool hold g n ⟨s', y.hist⟩ := by
  obtain ⟨h, rfl⟩ := Driver.of_rxStart hs
  have hlt : y.hist.pend.length < 8 := Nat.lt_of_le_of_ne w.ring.le fun h8 => h.1 (w.ring.full h8)
  have hring : y.drv.ring.Holds y.hist.pend false := by
    have := w.ring
    rwa [h.2] at this
  exact { w with
    ring := hring.reserve hlt
    target := fun a ha => (Option.some.inj ha).symm }

theorem rxDrop (w : Owns pool hold g n y) {f : Frame} {s' : Driver P} (hs : y.drv.rxDrop f = some s') :
    Owns pool hold g n ⟨s', y.hist⟩ := by
  obtain ⟨a, ht, rfl⟩ := Option.map_eq_some_iff.1 hs
  have hring : y.drv.ring.Holds y.hist.pend true := by
    have := w.ring
    rwa [ht] at this
  exact { w with
    ring := hring.drop
    target := nofun
    contents := fun e he => w.contents_land ht f he }

/-! ### `ethernetif_input` -/

theorem ne_of_mem_drop (w : Owns pool hold g n y) (he : e ∈ y.hist.pend.head?) {x : BitVec 3 × Frame}
    (hx : x ∈ y.hist.pend.drop 1) : x.1 ≠ e.1 := by
  have hnd := w.ring.nodup
  rw [List.eq_cons_of_mem_head? he] at hx hnd
  exact fun h => (List.nodup_cons.1 hnd).1 (h ▸ List.mem_map_of_mem hx)

theorem toList_eq_cons (w : Owns pool hold g 0 y) (hlen : 0 < y.drv.recvQ.len) :
    ∃ e ∈ y.hist.pend.head?, y.drv.recvQ.toList = (y.drv.dmaBdPbuf e.1.toNat, slotBit e.1) ::
      ((y.hist.pend.drop 1).take (y.drv.recvQ.len - 1)).map fun e => (y.drv.dmaBdPbuf e.1.toNat, slotBit e.1) := by
  have hle := w.le
  have hent := w.entries
  cases hp : y.hist.pend with
  | nil => rw [hp, List.length_nil] at hle; omega
  | cons e l =>
    refine ⟨e, rfl, ?_⟩
    rw [hent, hp, List.drop_zero, List.take_cons hlen, List.map_cons]
    rfl

theorem pop (w : Owns pool hold g 0 y) (hlen : 0 < y.drv.recvQ.len) (he : e ∈ y.hist.pend.head?) :
    y.drv.recvQ.qindex.1 = slotBit e.1 ∧ Owns pool hold g 1 ⟨{ y.drv with recvQ := y.drv.recvQ.qindex.2 }, y.hist⟩ := by
  obtain ⟨e', he', hcons⟩ := w.toList_eq_cons hlen
  obtain rfl : e' = e := Option.mem_unique he' he
  obtain ⟨-, hidx, hrest⟩ := w.wf.pop hcons
  have hq : y.drv.recvQ.qindex.2.len = y.drv.recvQ.len - 1 := by
    rw [Pqueue.qindex, if_neg (Nat.ne_of_gt hlen)]
  have hle := w.le
  refine ⟨hidx, { w with wf := w.wf.qindex, le := ?_, entries := ?_ }⟩
  · show 1 + y.drv.recvQ.qindex.2.len ≤ y.hist.pend.length
    omega
  · show y.drv.recvQ.qindex.2.toList = ((y.hist.pend.drop 1).take y.drv.recvQ.qindex.2.len).map _
    rw [hrest, hq]

theorem setPbuf (w : Owns pool hold true 1 y) (he : e ∈ y.hist.pend.head?) :
    Owns pool hold true 1
      ⟨{ y.drv with dmaBdPbuf := Function.update y.drv.dmaBdPbuf e.1.toNat (some p) }, y.hist⟩ := by
  have hne : ∀ {k : BitVec 3}, k ≠ e.1 →
      Function.update y.drv.dmaBdPbuf e.1.toNat (some p) k.toNat = y.drv.dmaBdPbuf k.toNat := fun hk =>
    Function.update_of_ne (fun h => hk (BitVec.eq_of_toNat_eq h)) ..
  refine { w with entries := ?_, armed := fun k hk => ?_ }
  · rw [w.entries]
    refine List.map_congr_left fun x hx => ?_
    show _ = (Function.update y.drv.dmaBdPbuf e.1.toNat (some p) x.1.toNat, _)
    rw [hne (w.ne_of_mem_drop he (List.mem_of_mem_take hx))]
  · obtain ⟨p', hp', hb, ha⟩ := w.armed k hk
    exact ⟨p', hp', (hne (hk rfl e he).symm).trans hb, ha⟩

theorem setAdr (w : Owns pool hold true 1 y) (he : e ∈ y.hist.pend.head?) (a : BitVec 32) :
    Owns pool hold true 1 ⟨{ y.drv with rxBdAdr := Function.update y.drv.rxBdAdr e.1 a }, y.hist⟩ := by
  have hne : ∀ {k : BitVec 3}, k ≠ e.1 → Function.update y.drv.rxBdAdr e.1 a k = y.drv.rxBdAdr k := fun hk =>
    Function.update_of_ne hk ..
  refine { w with target := fun a' ha' => ?_, armed := fun k hk => ?_, contents := fun x hx => ?_ }
  · have hidx : y.drv.ring.rxBdIdx ≠ e.1 := fun h =>
      w.ring.idx_not_mem (w.ring.room (by rw [show y.drv.target = some a' from ha']; rfl))
        (h ▸ List.mem_map_of_mem (List.mem_of_mem_head? he))
    exact (w.target a' ha').trans (hne hidx).symm
  · obtain ⟨p', hp', hb, ha⟩ := w.armed k hk
    exact ⟨p', hp', hb, (hne (hk rfl e he).symm).trans ha⟩
  · show y.drv.buf (Function.update y.drv.rxBdAdr e.1 a x.1) = _
    rw [hne (w.ne_of_mem_drop he hx)]; exact w.contents x hx

theorem clr (w : Owns pool hold true 1 y) (he : e ∈ y.hist.pend.head?) (ha : Armed pool hold y.drv e.1) :
    Owns pool hold false 0
      ⟨{ y.drv with ring := y.drv.ring.clear (slotMask e.1) },
       { y.hist with pend := y.hist.pend.filter fun x => !(slotMask e.1).getLsbD x.1.toNat }⟩ := by
  obtain ⟨done, hpub, hhan⟩ := w.history
  have hq := List.eq_cons_of_mem_head? he
  have hring := w.ring
  have hle := w.le
  have hent := w.entries
  have hcon := w.contents
  rw [hq] at hring hpub hhan hle hent hcon
  rw [hq, hring.filter_clear]
  rw [List.length_cons] at hle
  refine { w with
    ring := hring.clear
    given_le := Nat.zero_le _
    le := by show 0 + y.drv.recvQ.len ≤ y.hist.pend.tail.length; omega
    entries := hent
    armed := fun k _ => ?_
    contents := hcon
    history := ⟨done ++ [e.2], by rw [hpub]; simp, by rw [hhan]; simp⟩ }
  by_cases hk : e.1 = k
  · subst hk; exact ha
  · refine w.armed k fun _ x hx => ?_
    rwa [Option.mem_unique hx he]

theorem setPc (w : Owns pool hold g n y) (c : Pc P) : Owns pool hold g n ⟨{ y.drv with pc := c }, y.hist⟩ :=
  { w with }

variable [DecidableEq P]

theorem give (w : Owns pool hold false n y) (he : e ∈ y.hist.pend.head?) (hp : hold e.1 = some p)
    {o : Owner} (ho : o ≠ .driver) {l : List P} (hl : ∀ p' ∈ l, p' = p ∨ p' ∈ y.hist.handed) :
    Owns pool (Function.update hold e.1 none) true n
      ⟨{ y.drv with owner := Function.update y.drv.owner p o },
       { y.hist with
         handled := y.hist.handled ++ [e.2], passed := y.hist.passed ++ [e.2].filter Frame.passesUp, handed := l }⟩ := by
  obtain ⟨done, hpub, hhan⟩ := w.history
  have hold_of : ∀ {k p'}, Function.update hold e.1 none k = some p' → k ≠ e.1 ∧ hold k = some p' := by
    intro k p' h
    rw [Function.update_apply] at h
    split_ifs at h with hk
    exact ⟨hk, h⟩
  have hq := List.eq_cons_of_mem_head? he
  refine { w with
    given_le := by rw [hq]; exact Nat.succ_le_succ (Nat.zero_le _)
    armed := fun k hk => ?_
    own := fun k p' h => ?_
    inj := fun k k' p' h h' => w.inj k k' p' (hold_of h).2 (hold_of h').2
    contents := fun x hx => w.contents x (List.mem_of_mem_drop hx)
    history := ⟨done, hpub, ?_⟩
    passed := ?_
    handed := fun p' h => ?_ }
  · obtain ⟨p', hp', hb, ha⟩ := w.armed k nofun
    exact ⟨p', by rw [Function.update_of_ne (hk rfl e he).symm]; exact hp', hb, ha⟩
  · obtain ⟨hk, h⟩ := hold_of h
    have hne : p' ≠ p := by
      rintro rfl
      exact hk (w.inj _ _ _ h hp)
    show Function.update y.drv.owner p o p' = _
    rw [Function.update_of_ne hne]; exact w.own k p' h
  · show y.hist.handled ++ [e.2] = done ++ (y.hist.pend.take 1).map Prod.snd
    rw [hhan, hq]
    simp
  · show y.hist.passed ++ _ = (y.hist.handled ++ [e.2]).filter _
    rw [List.filter_append, w.passed]
  · show Function.update y.drv.owner p o p' ≠ _
    rw [Function.update_apply]
    split_ifs with hpp
    · exact ho
    · exact w.handed p' ((hl p' h).resolve_left hpp)

theorem take (w : Owns pool hold true n y) (he : e ∈ y.hist.pend.head?) (hp : y.drv.owner p = .free)
    (lens : P → Nat) :
    Owns pool (Function.update hold e.1 (some p)) true n
      ⟨{ y.drv with owner := Function.update y.drv.owner p .driver, totLen := lens },
       { y.hist with handed := y.hist.handed.filter (· ≠ p) }⟩ := by
  have hne : ∀ {k p'}, hold k = some p' → p' ≠ p := by
    rintro k p' h rfl
    have := w.own k p' h
    rw [hp] at this; cases this
  have hold_of : ∀ {k p'}, Function.update hold e.1 (some p) k = some p' →
      k = e.1 ∧ p' = p ∨ hold k = some p' := by
    intro k p' h
    rw [Function.update_apply] at h
    split_ifs at h with hk
    · exact .inl ⟨hk, (Option.some.inj h).symm⟩
    · exact .inr h
  refine { w with
    armed := fun k hk => ?_
    own := fun k p' h => ?_
    inj := fun k k' p' h h' => ?_
    handed := fun p' h => ?_ }
  · obtain ⟨p', hp', hb, ha⟩ := w.armed k hk
    exact ⟨p', by rw [Function.update_of_ne (hk rfl e he).symm]; exact hp', hb, ha⟩
  · show Function.update y.drv.owner p .driver p' = _
    rcases hold_of h with ⟨-, rfl⟩ | h
    · exact Function.update_self ..
    · rw [Function.update_of_ne (hne h)]; exact w.own k p' h
  · rcases hold_of h with ⟨rfl, rfl⟩ | h <;> rcases hold_of h' with ⟨rfl, e'⟩ | h'
    · rfl
    · exact absurd rfl (hne h')
    · exact absurd e' (hne h)
    · exact w.inj k k' p' h h'
  · obtain ⟨hmem, hpp⟩ := List.mem_filter.1 h
    show Function.update y.drv.owner p .driver p' ≠ _
    rw [Function.update_of_ne (by simpa using hpp)]
    exact w.handed p' hmem

/-! ### Publication, `dma_rx_irq` and lwIP -/

theorem rxPublish (w : Owns pool hold g n y) {f : Frame} {s' : Driver P} (hs : y.drv.rxPublish f = some s') :
    Owns pool hold g n ⟨s', y.hist.observe pool (.rxPublish f) y.drv⟩ := by
  obtain ⟨a, ht, rfl⟩ := Option.map_eq_some_iff.1 hs
  have hlt := w.ring.room (by rw [ht]; rfl)
  have hring : y.drv.ring.Holds y.hist.pend true := by
    have := w.ring
    rwa [ht] at this
  obtain ⟨done, hpub, hhan⟩ := w.history
  refine { w with
    ring := hring.publish f
    target := nofun
    given_le := ?_
    le := ?_
    entries := ?_
    armed := fun k hk => w.armed k fun hg x hx => hk hg x (head?_append _ hx)
    contents := ?_
    history := ⟨done, ?_, ?_⟩ }
  · show _ ≤ (y.hist.pend ++ [_]).length
    rw [List.length_append]; exact w.given_le.trans (Nat.le_add_right ..)
  · show _ ≤ (y.hist.pend ++ [_]).length
    rw [List.length_append]; exact w.le.trans (Nat.le_add_right ..)
  · show _ = (((y.hist.pend ++ [_]).drop n).take y.drv.recvQ.len).map _
    have hle := w.le
    rw [List.drop_append_of_le_length (by omega), List.take_append_of_le_length (by rw [List.length_drop]; omega)]
    exact w.entries
  · show ∀ e ∈ (y.hist.pend ++ [(y.drv.ring.rxBdIdx, f)]).drop g.toNat,
      Function.update y.drv.buf a (some f) (y.drv.rxBdAdr e.1) = some e.2
    intro e he
    rw [List.drop_append_of_le_length w.given_le, List.mem_append] at he
    rcases he with he | he
    · exact w.contents_land ht f he
    · obtain rfl := List.mem_singleton.1 he
      rw [w.target a ht]; exact Function.update_self ..
  · show y.hist.published ++ [f] = done ++ (y.hist.pend ++ [_]).map Prod.snd
    rw [hpub, List.map_append, List.append_assoc]; rfl
  · show y.hist.handled = done ++ ((y.hist.pend ++ [_]).take g.toNat).map Prod.snd
    rw [List.take_append_of_le_length w.given_le]; exact hhan

theorem stackFree (w : Owns pool hold g n y) (hp : y.drv.owner p = .stack) :
    Owns pool hold g n ⟨{ y.drv with owner := Function.update y.drv.owner p .free }, y.hist⟩ := by
  refine { w with
    own := fun k p' h => ?_
    handed := fun p' h => ?_ }
  · have hne : p' ≠ p := by
      rintro rfl
      have := w.own k p' h
      rw [hp] at this; cases this
    show Function.update y.drv.owner p .free p' = _
    rw [Function.update_of_ne hne]; exact w.own k p' h
  · show Function.update y.drv.owner p .free p' ≠ _
    rw [Function.update_apply]
    split_ifs
    · exact nofun
    · exact w.handed p' h

end Owns

namespace Inv

theorem other {y' : RxPath P} (w : Inv pool hold y) (o : Owns pool hold y.drv.pc.given y.drv.pc.popped y')
    (hpc : y'.drv.pc = y.drv.pc) (hb : y'.drv.dmaBdPbuf = y.drv.dmaBdPbuf)
    (ha : y'.drv.rxBdAdr = y.drv.rxBdAdr) (hq : y.drv.recvQ.len ≤ y'.drv.recvQ.len)
    (hh : ∀ e ∈ y.hist.pend.head?, e ∈ y'.hist.pend.head?) : Inv pool hold y' :=
  ⟨by rw [hpc]; exact o, w.loc.mono hpc hb ha hq hh⟩

variable [DecidableEq P]

/-- `dma_rx_irq` enqueues the slots it finds. -/
theorem irq (w : Inv pool hold y) (hin : y.IrqInOrder) : Inv pool hold ⟨y.drv.dmaRxIrq, y.hist⟩ := by
  have o := w.owns
  obtain ⟨k, hm, hi⟩ := o.mask
  have hlen : y.drv.recvQ.len ≤ 8 := o.wf.le
  obtain ⟨lens, q, he, wq, hq⟩ := Driver.irqLoop_eq (n := 8 - y.drv.recvQ.len)
    y.drv.ring.rxBdSta o.wf hm hi (by omega)
  have hfound : y.drv.hits = (Driver.found y.drv.ring.rxBdSta k (8 - y.drv.recvQ.len)).map fun i =>
      k + BitVec.ofNat 3 i := by
    rw [Driver.hits, hi, BitVec.ofNat_toNat, BitVec.setWidth_eq]
  -- each slot found is enqueued with its own pbuf: the handler starts at slot 0
  have hq' : q.toList = y.drv.recvQ.toList ++ y.drv.hits.map fun k => (y.drv.dmaBdPbuf k.toNat, slotBit k) := by
    rw [hq, hfound, List.map_map]
    congr 1
    refine List.map_congr_left fun i hfi => ?_
    have hne : y.drv.hits ≠ [] := by
      rw [hfound]
      exact fun h => List.ne_nil_of_mem hfi (List.map_eq_nil_iff.1 h)
    have hk : k = 0 := eq_zero_of_slotBit_eq_one (hm.symm.trans (hin hne).1)
    have hi8 : i < 8 := by
      have := List.mem_range.1 (List.mem_of_mem_filter hfi)
      omega
    subst hk
    have hi : (0 + BitVec.ofNat 3 i).toNat = i := by
      rw [zero_add, BitVec.toNat_ofNat, Nat.mod_eq_of_lt hi8]
    simp only [Function.comp_apply, hi]
  have hpre : y.drv.hits <+: y.fresh := by
    by_cases hne : y.drv.hits = []
    · rw [hne]; exact List.nil_prefix
    · exact (hin hne).2
  have hlenq : q.len = y.drv.recvQ.len + y.drv.hits.length := by
    have := congrArg List.length hq'
    rwa [List.length_append, List.length_map, Pqueue.length_toList, Pqueue.length_toList] at this
  have hdrv : y.drv.dmaRxIrq = _ := he
  rw [hdrv]
  refine ⟨{ o with wf := wq, mask := ⟨_, rfl, rfl⟩, le := ?_, entries := ?_ },
    w.loc.mono rfl rfl rfl (by rw [hlenq]; exact Nat.le_add_right _ _) fun _ he => he⟩
  · show y.drv.pc.popped + q.len ≤ y.hist.pend.length
    have := hpre.length_le
    rw [fresh, List.length_map, List.length_drop] at this
    have := o.le
    omega
  · show q.toList = ((y.hist.pend.drop y.drv.pc.popped).take q.len).map fun e =>
      (y.drv.dmaBdPbuf e.1.toNat, slotBit e.1)
    have hhits : y.drv.hits = ((y.hist.pend.drop (y.drv.pc.popped + y.drv.recvQ.len)).take y.drv.hits.length).map
        Prod.fst := by
      rw [List.map_take]; exact List.prefix_iff_eq_take.1 hpre
    rw [hlenq, List.take_add, List.map_append, ← o.entries, hq', List.drop_drop]
    congr 1
    conv_lhs => rw [hhits]
    rw [List.map_map]
    rfl

theorem main (w : Inv pool hold y) {inputOk : Bool} {new : Option P} {s' : Driver P}
    (hnew : (Act.main inputOk new).allocates y.drv = true) (hs : y.drv.main pool inputOk new = some s') :
    ∃ hold', Inv pool hold' ⟨s', y.hist.observe pool (.main inputOk new) y.drv⟩ := by
  have o := w.owns
  have l := w.loc
  unfold Local at l
  unfold Driver.main at hs
  unfold RxHistory.observe
  cases hpc : y.drv.pc with
  | fetch =>
    rw [hpc] at o hs
    dsimp only
    cases hin : y.drv.lowLevelInput with
    | none =>
      rw [hin] at hs
      obtain rfl := Option.some.inj hs
      exact ⟨hold, w⟩
    | some p =>
      rw [hin] at hs
      obtain rfl := Option.some.inj hs
      unfold Driver.lowLevelInput at hin
      split_ifs at hin with hlen
      have hpos : 0 < y.drv.recvQ.len := Nat.pos_of_ne_zero hlen
      obtain ⟨e, he, hcons⟩ := o.toList_eq_cons hpos
      obtain ⟨p', hp', hb, -⟩ := o.armed e.1 nofun
      rw [(o.wf.pop hcons).1, hb] at hin
      obtain rfl := Option.some.inj hin
      exact ⟨hold, o.setPc _, hpos, e, he, hp'⟩
  | dispatch p =>
    rw [hpc] at o l hs
    obtain rfl := Option.some.inj hs
    obtain ⟨hlen, e, he, hp⟩ := l
    obtain ⟨p', hp', hb, ha⟩ := o.armed e.1 nofun
    obtain rfl : p = p' := Option.some.inj (hp.symm.trans hp')
    have hbuf : y.drv.buf (pool.payload p) = some e.2 := by
      rw [← ha]; exact o.contents e (List.mem_of_mem_head? he)
    simp only [hbuf, Option.toList_some]
    refine ⟨_, (o.give he hp ?_ ?_).setPc .alloc, hlen, e, he, p, hb, ha, fun k hk => ?_⟩
    · split_ifs <;> exact nofun
    · intro p'' h
      split_ifs at h
      · exact List.mem_cons.1 h
      · exact .inr h
    · rw [Function.update_of_ne hk]
      exact fun h => hk (o.inj _ _ _ h hp)
  | alloc =>
    rw [hpc] at o l hs
    obtain ⟨hlen, e, he, p', hb, ha, hne⟩ := l
    cases new with
    | none => unfold Act.allocates at hnew; rw [hpc] at hnew; cases hnew
    | some p =>
      dsimp only at hs
      split_ifs at hs with hfree
      obtain rfl := Option.some.inj hs
      dsimp only
      refine ⟨_, (o.take he hfree _).setPc (.pop p), hlen, e, he, Function.update_self .., p', hb, ha, ?_⟩
      intro k hk
      rw [Function.update_of_ne hk]; exact hne k hk
  | pop p =>
    rw [hpc] at o l hs
    obtain rfl := Option.some.inj hs
    obtain ⟨hlen, e, he, hp, -⟩ := l
    obtain ⟨hidx, o'⟩ := o.pop hlen he
    dsimp only
    exact ⟨hold, o'.setPc _, e, he, hp, hidx⟩
  | setPbuf p j =>
    rw [hpc] at o l hs
    obtain rfl := Option.some.inj hs
    obtain ⟨e, he, hp, rfl⟩ := l
    simp only [findSlot_slotBit]
    exact ⟨hold, (o.setPbuf he).setPc _, e, he, hp, rfl, Function.update_self ..⟩
  | setAdr p j =>
    rw [hpc] at o l hs
    obtain rfl := Option.some.inj hs
    obtain ⟨e, he, hp, rfl, hb⟩ := l
    have hk : e.1.toNat < 8 := e.1.isLt
    simp only [findSlot_slotBit, hk, if_true, BitVec.ofNat_toNat, BitVec.setWidth_eq]
    exact ⟨hold, (o.setAdr he _).setPc _, e, he, rfl, p, hp, hb, Function.update_self ..⟩
  | clr j =>
    rw [hpc] at o l hs
    obtain rfl := Option.some.inj hs
    obtain ⟨e, he, rfl, ha⟩ := l
    simp only [setWidth_slotBit]
    exact ⟨hold, (o.clr he ha).setPc _, trivial⟩

/-- **Every action keeps the invariant.** -/
theorem step (w : Inv pool hold y) {a : Act P} {y' : RxPath P} (hc : Clean a y) (h : y.step pool a = some y') :
    ∃ hold', Inv pool hold' y' := by
  obtain ⟨s', hs, rfl⟩ := Option.map_eq_some_iff.1 h
  have same : ∀ e ∈ y.hist.pend.head?, e ∈ y.hist.pend.head? := fun _ he => he
  cases a with
  | rxStart =>
    have o := w.owns.rxStart hs
    obtain ⟨-, rfl⟩ := Driver.of_rxStart hs
    exact ⟨hold, w.other o rfl rfl rfl le_rfl same⟩
  | rxPublish f =>
    have o := w.owns.rxPublish hs
    obtain ⟨a, -, rfl⟩ := Option.map_eq_some_iff.1 hs
    exact ⟨hold, w.other o rfl rfl rfl le_rfl fun _ he => Owns.head?_append _ he⟩
  | rxDrop f =>
    have o := w.owns.rxDrop hs
    obtain ⟨a, -, rfl⟩ := Option.map_eq_some_iff.1 hs
    exact ⟨hold, w.other o rfl rfl rfl le_rfl same⟩
  | irq =>
    obtain rfl := Driver.of_irq hs
    exact ⟨hold, w.irq (hc.2 rfl)⟩
  | stackFree p =>
    obtain ⟨hp, rfl⟩ := Driver.of_stackFree hs
    exact ⟨hold, w.other (w.owns.stackFree hp) rfl rfl rfl le_rfl same⟩
  | main inputOk new => exact w.main hc.1 hs

end Inv

end RxPath

end Picorv32Soc
