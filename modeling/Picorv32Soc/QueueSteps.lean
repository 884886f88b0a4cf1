import Picorv32Soc.Pqueue
import Picorv32Soc.Steps

/-!
# `pqueue.c` under interrupts

The main loop is inside `pq_dequeue` or `pq_qindex` while `dma_rx_irq` calls `pq_enqueue`. The calls of
the main loop are taken one load or store at a time (`Place`), `pq_enqueue` is one step and may come
between any two of them. The accesses are those of the source, in its order. The fields are not
`volatile`, so a compiler may load one once for two uses or move a store before another: which of these
places an object file has is a matter of the compiler.

Beside the queue runs the queue it should be, a bounded first-in first-out list (`BoundedQueue`). `pq_dequeue`
and `pq_qindex` take effect there with their last access, or with the load of `len` that finds the
queue empty. The two agree (`Agrees`) as long as no entry arrives between the load of `len` that
`q->len--` makes and its store (`Calm`); one that does is lost.
-/

namespace Picorv32Soc

/-! ### The queue it should be -/

/-- A first-in first-out queue of bounded length, with what was last looked at and last removed. -/
structure BoundedQueue (α : Type*) where
  items : List (Option α × BitVec 32)
  peeked : Option α
  popped : BitVec 32

namespace BoundedQueue
variable {α : Type*} {f : BoundedQueue α} {e : Option α × BitVec 32}

def empty : BoundedQueue α := ⟨[], none, 0⟩

/-- A full queue refuses the entry. -/
def enqueue (f : BoundedQueue α) (e : Option α × BitVec 32) : BoundedQueue α :=
  if f.items.length = pqQueueSize then f else { f with items := f.items ++ [e] }

def peek (f : BoundedQueue α) : BoundedQueue α := { f with peeked := f.items.head?.bind Prod.fst }

def pop (f : BoundedQueue α) : BoundedQueue α :=
  { f with items := f.items.tail, popped := (f.items.head?.map Prod.snd).getD 0 }

theorem enqueue_full (h : f.items.length = pqQueueSize) : f.enqueue e = f := if_pos h

theorem enqueue_of_lt (h : f.items.length < pqQueueSize) : f.enqueue e = { f with items := f.items ++ [e] } :=
  if_neg (Nat.ne_of_lt h)

theorem peeked_enqueue : (f.enqueue e).peeked = f.peeked := by
  unfold enqueue
  split_ifs <;> rfl

theorem popped_enqueue : (f.enqueue e).popped = f.popped := by
  unfold enqueue
  split_ifs <;> rfl

/-- The oldest entry stays the oldest. -/
theorem mem_head?_enqueue {x : Option α × BitVec 32} (h : x ∈ f.items.head?) : x ∈ (f.enqueue e).items.head? := by
  unfold enqueue
  split_ifs
  · exact h
  · rw [List.eq_cons_of_mem_head? h]
    rfl

end BoundedQueue

namespace Pqueue
variable {α : Type*}

/-! ### The accesses of the main loop -/

/-- The next access to the queue, with the values loaded so far. -/
inductive Place
  /-- outside `pqueue.c` -/
  | idle
  /-- `pq_dequeue`: `q->len` -/
  | deqLen
  /-- `q->tail` -/
  | deqTail
  /-- `q->data[tail]` -/
  | deqData (tail : Nat)
  /-- `pq_qindex`: `q->len` -/
  | idxLen
  /-- `q->tail` -/
  | idxTail
  /-- `pidx = q->index[tail]` -/
  | idxIndex (tail : Nat)
  /-- the load in `q->tail = (q->tail + 1) % PQ_QUEUE_SIZE` -/
  | incTail (pidx : BitVec 32)
  /-- and its store -/
  | setTail (pidx : BitVec 32) (tail : Nat)
  /-- the load in `q->len--` -/
  | decLen (pidx : BitVec 32)
  /-- and its store -/
  | setLen (pidx : BitVec 32) (len : Nat)
deriving DecidableEq, Repr

/-- `pq_qindex` is in progress. -/
def Place.inQindex : Place → Bool
  | .idle | .deqLen | .deqTail | .deqData _ => false
  | _ => true

/-- The next access is the store of `q->len--`. -/
def Place.isSetLen : Place → Bool
  | .setLen .. => true
  | _ => false

/-- The queue, where the main loop is, what its calls have returned, and the queue it should be. -/
structure Shared (α : Type*) where
  q : Pqueue α
  place : Place
  /-- the last result of `pq_dequeue` -/
  dequeued : Option α
  /-- the last result of `pq_qindex` -/
  pidx : BitVec 32
  fifo : BoundedQueue α

/-- What happens next. -/
inductive Move (α : Type*)
  /-- the main loop calls `pq_dequeue` -/
  | dequeue
  /-- the main loop calls `pq_qindex` -/
  | qindex
  /-- the next access of the main loop -/
  | next
  /-- an interrupt calls `pq_enqueue` -/
  | enqueue (p : Option α) (idx : BitVec 32)

def Move.isEnqueue : Move α → Bool
  | .enqueue .. => true
  | _ => false

namespace Shared

def start : Shared α := ⟨.create, .idle, none, 0, .empty⟩

/-- The next access. -/
def next (s : Shared α) : Option (Shared α) :=
  match s.place with
  | .idle => none
  | .deqLen =>
    if s.q.len = 0 then some { s with place := .idle, dequeued := none, fifo := s.fifo.peek }
    else some { s with place := .deqTail }
  | .deqTail => some { s with place := .deqData s.q.tail }
  | .deqData tail => some { s with place := .idle, dequeued := s.q.data tail, fifo := s.fifo.peek }
  | .idxLen =>
    if s.q.len = 0 then some { s with place := .idle, pidx := 0, fifo := s.fifo.pop }
    else some { s with place := .idxTail }
  | .idxTail => some { s with place := .idxIndex s.q.tail }
  | .idxIndex tail => some { s with place := .incTail (s.q.index tail) }
  | .incTail pidx => some { s with place := .setTail pidx s.q.tail }
  | .setTail pidx tail =>
    some { s with q := { s.q with tail := (tail + 1) % pqQueueSize }, place := .decLen pidx }
  | .decLen pidx => some { s with place := .setLen pidx s.q.len }
  | .setLen pidx len =>
    some { s with q := { s.q with len := len - 1 }, place := .idle, pidx := pidx, fifo := s.fifo.pop }

def step (m : Move α) (s : Shared α) : Option (Shared α) :=
  match m with
  | .dequeue => if s.place = .idle then some { s with place := .deqLen } else none
  | .qindex => if s.place = .idle then some { s with place := .idxLen } else none
  | .next => s.next
  | .enqueue p idx => some { s with q := (s.q.enqueue p idx).2, fifo := s.fifo.enqueue (p, idx) }

/-- Without an interrupt the accesses of `pq_dequeue` are `Pqueue.dequeue`. -/
theorem exec_dequeue {s : Shared α} (hidle : s.place = .idle) (hl : s.q.len ≠ 0) :
    Steps.exec step Steps.Free (.dequeue :: List.replicate 3 .next) s =
      some { s with dequeued := s.q.dequeue, fifo := s.fifo.peek } := by
  simp [Steps.exec, List.replicate, Steps.Free, step, next, Pqueue.dequeue, hidle, hl]

/-- Those of `pq_qindex` are `Pqueue.qindex`. -/
theorem exec_qindex {s : Shared α} (hidle : s.place = .idle) (hl : s.q.len ≠ 0) :
    Steps.exec step Steps.Free (.qindex :: List.replicate 7 .next) s =
      some { s with q := s.q.qindex.2, pidx := s.q.qindex.1, fifo := s.fifo.pop } := by
  simp [Steps.exec, List.replicate, Steps.Free, step, next, Pqueue.qindex, hidle, hl]

/-- The queue is what it should be, and so is what its users were told. -/
structure Agrees (s : Shared α) : Prop where
  items : s.q.toList = s.fifo.items
  dequeued : s.dequeued = s.fifo.peeked
  pidx : s.pidx = s.fifo.popped

/-- No entry is accepted between the load and the store of `q->len--`. -/
def Calm (m : Move α) (s : Shared α) : Prop :=
  m.isEnqueue = true → s.place.isSetLen = true → s.q.len = pqQueueSize

instance (m : Move α) (s : Shared α) : Decidable (Calm m s) := inferInstanceAs (Decidable (_ → _ → _))

/-! ### The invariant -/

/-- The queue represents the bounded queue. -/
structure Holds (f : BoundedQueue α) (q : Pqueue α) : Prop where
  wf : q.Wf
  items : q.toList = f.items

/-- It does so but for `tail`, which is one ahead. -/
def Moved (f : BoundedQueue α) (q : Pqueue α) : Prop :=
  ∃ q₀, Holds f q₀ ∧ 0 < q₀.len ∧ q = { q₀ with tail := (q₀.tail + 1) % pqQueueSize }

/-- `pidx` is the mask of the oldest entry. -/
def Oldest (f : BoundedQueue α) (pidx : BitVec 32) : Prop := ∃ e ∈ f.items.head?, e.2 = pidx

/-- What holds at each access. -/
def Local (s : Shared α) : Prop :=
  match s.place with
  | .idle | .deqLen | .idxLen => Holds s.fifo s.q
  | .deqTail | .idxTail => Holds s.fifo s.q ∧ 0 < s.q.len
  | .deqData tail | .idxIndex tail => Holds s.fifo s.q ∧ 0 < s.q.len ∧ tail = s.q.tail
  | .incTail pidx => Holds s.fifo s.q ∧ 0 < s.q.len ∧ Oldest s.fifo pidx
  | .setTail pidx tail => Holds s.fifo s.q ∧ 0 < s.q.len ∧ Oldest s.fifo pidx ∧ tail = s.q.tail
  | .decLen pidx => Moved s.fifo s.q ∧ Oldest s.fifo pidx
  | .setLen pidx len => Moved s.fifo s.q ∧ Oldest s.fifo pidx ∧ len = s.q.len

structure Inv (s : Shared α) : Prop where
  loc : s.Local
  dequeued : s.dequeued = s.fifo.peeked
  pidx : s.pidx = s.fifo.popped

variable {s : Shared α} {f : BoundedQueue α} {q : Pqueue α} {p : Option α} {idx pidx : BitVec 32}

theorem Holds.length (h : Holds f q) : f.items.length = q.len := by
  rw [← h.items, length_toList]

theorem Holds.items_eq_cons (h : Holds f q) (hl : 0 < q.len) :
    f.items = (q.data q.tail, q.index q.tail) :: q.qindex.2.toList := by
  rw [← h.items]
  exact h.wf.toList_eq_cons (Nat.ne_of_gt hl)

theorem Holds.items_eq_nil (h : Holds f q) (hl : q.len = 0) : f.items = [] :=
  List.eq_nil_of_length_eq_zero (h.length.trans hl)

theorem Inv.agrees (v : Inv s) (hp : s.place.inQindex = false) : s.Agrees := by
  have l := v.loc
  unfold Local at l
  cases hpl : s.place with
  | idle | deqLen => rw [hpl] at l; exact ⟨l.items, v.dequeued, v.pidx⟩
  | deqTail | deqData => rw [hpl] at l; exact ⟨l.1.items, v.dequeued, v.pidx⟩
  | idxLen | idxTail | idxIndex | incTail | setTail | decLen | setLen => rw [hpl] at hp; cases hp

/-! ### The interrupt -/

theorem Holds.enqueue (h : Holds f q) : Holds (f.enqueue (p, idx)) (q.enqueue p idx).2 := by
  refine ⟨h.wf.enqueue, ?_⟩
  rcases Nat.lt_or_ge q.len pqQueueSize with hlt | hge
  · rw [h.wf.toList_enqueue hlt, BoundedQueue.enqueue_of_lt (by rw [h.length]; exact hlt), h.items]
  · have hfull := Nat.le_antisymm h.wf.le hge
    rw [BoundedQueue.enqueue_full (h.length.trans hfull), Pqueue.enqueue, if_pos hfull, h.items]

theorem len_le_enqueue (q : Pqueue α) : q.len ≤ (q.enqueue p idx).2.len := by
  unfold Pqueue.enqueue
  split_ifs
  exacts [le_rfl, Nat.le_succ _]

theorem tail_enqueue (q : Pqueue α) : (q.enqueue p idx).2.tail = q.tail := by
  unfold Pqueue.enqueue
  split_ifs <;> rfl

/-- `pq_enqueue` does not look at `tail`. -/
theorem enqueue_setTail (q : Pqueue α) (t : Nat) :
    ({ q with tail := t }.enqueue p idx).2 = { (q.enqueue p idx).2 with tail := t } := by
  unfold Pqueue.enqueue
  split_ifs <;> rfl

theorem Moved.enqueue (h : Moved f q) : Moved (f.enqueue (p, idx)) (q.enqueue p idx).2 := by
  obtain ⟨q₀, hq, hl, rfl⟩ := h
  exact ⟨(q₀.enqueue p idx).2, hq.enqueue, hl.trans_le (len_le_enqueue q₀), by rw [enqueue_setTail, tail_enqueue]⟩

theorem Moved.length (h : Moved f q) : f.items.length = q.len := by
  obtain ⟨q₀, hq, -, rfl⟩ := h
  exact hq.length

theorem Oldest.enqueue (h : Oldest f pidx) : Oldest (f.enqueue (p, idx)) pidx := by
  obtain ⟨e, he, rfl⟩ := h
  exact ⟨e, BoundedQueue.mem_head?_enqueue he, rfl⟩

theorem Inv.enqueue (v : Inv s) (hc : Calm (.enqueue p idx) s) :
    Inv { s with q := (s.q.enqueue p idx).2, fifo := s.fifo.enqueue (p, idx) } := by
  have l := v.loc
  unfold Local at l
  refine ⟨?_, v.dequeued.trans BoundedQueue.peeked_enqueue.symm, v.pidx.trans BoundedQueue.popped_enqueue.symm⟩
  unfold Local
  cases hpl : s.place with
  | idle | deqLen | idxLen => rw [hpl] at l; exact l.enqueue
  | deqTail | idxTail => rw [hpl] at l; exact ⟨l.1.enqueue, l.2.trans_le (len_le_enqueue _)⟩
  | deqData | idxIndex =>
    rw [hpl] at l
    obtain ⟨h, hl, ht⟩ := l
    exact ⟨h.enqueue, hl.trans_le (len_le_enqueue _), ht.trans (tail_enqueue _).symm⟩
  | incTail =>
    rw [hpl] at l
    obtain ⟨h, hl, ho⟩ := l
    exact ⟨h.enqueue, hl.trans_le (len_le_enqueue _), ho.enqueue⟩
  | setTail =>
    rw [hpl] at l
    obtain ⟨h, hl, ho, ht⟩ := l
    exact ⟨h.enqueue, hl.trans_le (len_le_enqueue _), ho.enqueue, ht.trans (tail_enqueue _).symm⟩
  | decLen => rw [hpl] at l; exact ⟨l.1.enqueue, l.2.enqueue⟩
  | setLen =>
    rw [hpl] at l
    obtain ⟨h, ho, hlen⟩ := l
    -- the queue is full, so the entry is refused and the loaded length is still right
    have hfull := hc rfl (by rw [hpl]; rfl)
    have hsame : (s.q.enqueue p idx).2.len = s.q.len := by rw [Pqueue.enqueue, if_pos hfull]
    exact ⟨h.enqueue, ho.enqueue, hlen.trans hsame.symm⟩

/-! ### The main loop -/

/-- The store of `len` completes the removal of the oldest entry. -/
theorem Moved.setLen (h : Moved f q) : Holds f.pop { q with len := q.len - 1 } := by
  obtain ⟨q₀, hq, hl, rfl⟩ := h
  have hpop : { q₀ with tail := (q₀.tail + 1) % pqQueueSize, len := q₀.len - 1 } = q₀.qindex.2 := by
    rw [Pqueue.qindex, if_neg (Nat.ne_of_gt hl)]
  refine ⟨?_, ?_⟩
  · rw [hpop]
    exact hq.wf.qindex
  · show _ = f.items.tail
    rw [hpop, hq.items_eq_cons hl]
    rfl

theorem Oldest.popped (h : Oldest f pidx) : pidx = f.pop.popped := by
  obtain ⟨e, he, rfl⟩ := h
  show e.2 = (f.items.head?.map Prod.snd).getD 0
  rw [he]
  rfl

theorem Holds.oldest (h : Holds f q) (hl : 0 < q.len) : Oldest f (q.index q.tail) :=
  ⟨_, by rw [h.items_eq_cons hl]; rfl, rfl⟩

theorem Holds.peeked (h : Holds f q) (hl : 0 < q.len) : q.data q.tail = f.peek.peeked := by
  show _ = f.items.head?.bind Prod.fst
  rw [h.items_eq_cons hl]
  rfl

/-- On an empty queue `pq_dequeue` and `pq_qindex` return 0. -/
theorem Holds.empty (h : Holds f q) (h0 : q.len = 0) :
    none = f.peek.peeked ∧ 0 = f.pop.popped ∧ Holds f.pop q := by
  have hnil := h.items_eq_nil h0
  refine ⟨?_, ?_, h.wf, ?_⟩
  · show none = f.items.head?.bind Prod.fst
    rw [hnil]
    rfl
  · show 0 = (f.items.head?.map Prod.snd).getD 0
    rw [hnil]
    rfl
  · show q.toList = f.items.tail
    rw [h.items, hnil]
    rfl

theorem Inv.next {s' : Shared α} (v : Inv s) (hs : s.next = some s') : Inv s' := by
  have l := v.loc
  unfold Local at l
  unfold Shared.next at hs
  cases hpl : s.place with
  | idle => rw [hpl] at hs; cases hs
  | deqLen =>
    rw [hpl] at l hs
    dsimp only at hs
    split_ifs at hs with h0
    · obtain rfl := Option.some.inj hs
      exact ⟨⟨l.wf, l.items⟩, (l.empty h0).1, v.pidx⟩
    · obtain rfl := Option.some.inj hs
      exact ⟨⟨l, Nat.pos_of_ne_zero h0⟩, v.dequeued, v.pidx⟩
  | idxLen =>
    rw [hpl] at l hs
    dsimp only at hs
    split_ifs at hs with h0
    · obtain rfl := Option.some.inj hs
      obtain ⟨-, hpop, h⟩ := l.empty h0
      exact ⟨h, v.dequeued, hpop⟩
    · obtain rfl := Option.some.inj hs
      exact ⟨⟨l, Nat.pos_of_ne_zero h0⟩, v.dequeued, v.pidx⟩
  | deqTail | idxTail =>
    rw [hpl] at l hs
    obtain rfl := Option.some.inj hs
    exact ⟨⟨l.1, l.2, rfl⟩, v.dequeued, v.pidx⟩
  | deqData tail =>
    rw [hpl] at l hs
    obtain rfl := Option.some.inj hs
    obtain ⟨h, hl, rfl⟩ := l
    exact ⟨⟨h.wf, h.items⟩, h.peeked hl, v.pidx⟩
  | idxIndex tail =>
    rw [hpl] at l hs
    obtain rfl := Option.some.inj hs
    obtain ⟨h, hl, rfl⟩ := l
    exact ⟨⟨h, hl, h.oldest hl⟩, v.dequeued, v.pidx⟩
  | incTail pidx =>
    rw [hpl] at l hs
    obtain rfl := Option.some.inj hs
    obtain ⟨h, hl, ho⟩ := l
    exact ⟨⟨h, hl, ho, rfl⟩, v.dequeued, v.pidx⟩
  | setTail pidx tail =>
    rw [hpl] at l hs
    obtain rfl := Option.some.inj hs
    obtain ⟨h, hl, ho, rfl⟩ := l
    exact ⟨⟨⟨s.q, h, hl, rfl⟩, ho⟩, v.dequeued, v.pidx⟩
  | decLen pidx =>
    rw [hpl] at l hs
    obtain rfl := Option.some.inj hs
    exact ⟨⟨l.1, l.2, rfl⟩, v.dequeued, v.pidx⟩
  | setLen pidx len =>
    rw [hpl] at l hs
    obtain rfl := Option.some.inj hs
    obtain ⟨h, ho, rfl⟩ := l
    exact ⟨h.setLen, v.dequeued, ho.popped⟩

theorem Inv.step {m : Move α} {s' : Shared α} (v : Inv s) (hc : Calm m s) (hs : s.step m = some s') : Inv s' := by
  unfold Shared.step at hs
  cases m with
  | next => exact v.next hs
  | enqueue p idx =>
    obtain rfl := Option.some.inj hs
    exact v.enqueue hc
  | dequeue | qindex =>
    dsimp only at hs
    split_ifs at hs with hidle
    obtain rfl := Option.some.inj hs
    have l := v.loc
    unfold Local at l
    rw [hidle] at l
    exact ⟨⟨l.wf, l.items⟩, v.dequeued, v.pidx⟩

theorem inv_of_reach (r : Steps.Reach step Calm start s) : Inv s :=
  r.inv ⟨⟨wf_create, rfl⟩, rfl, rfl⟩ fun _ _ _ v hc hs => v.step hc hs

/-- An entry accepted between the load and the store of `len` is lost. -/
theorem Inv.loses (v : Inv s) (hpl : s.place.isSetLen = true) (hlen : s.q.len ≠ pqQueueSize) {s' : Shared α}
    (hs : s.step (.enqueue p idx) = some s') :
    ∃ z, Steps.Reach Shared.step Calm s' z ∧ z.place.inQindex = false ∧ ¬ z.Agrees := by
  obtain rfl := Option.some.inj hs
  have l := v.loc
  unfold Local at l
  cases hp : s.place with
  | setLen pidx len =>
    rw [hp] at l
    obtain ⟨h, -, rfl⟩ := l
    obtain ⟨hlt, hpos⟩ : s.q.len < pqQueueSize ∧ 0 < s.q.len := by
      obtain ⟨q₀, hq, hl, he⟩ := h
      rw [he] at hlen ⊢
      exact ⟨Nat.lt_of_le_of_ne hq.wf.le hlen, hl⟩
    refine ⟨_, .next .next .start nofun rfl, rfl, fun g => ?_⟩
    -- the bounded queue has accepted one entry and given away one, `len` has gone down
    have hitems := congrArg List.length g.items
    rw [length_toList, BoundedQueue.enqueue_of_lt (by rw [h.length]; exact hlt)] at hitems
    change s.q.len - 1 = (s.fifo.items ++ [(p, idx)]).tail.length at hitems
    rw [List.length_tail, List.length_append, h.length, List.length_singleton] at hitems
    omega
  | idle | deqLen | deqTail | deqData | idxLen | idxTail | idxIndex | incTail | setTail | decLen =>
    rw [hp] at hpl
    cases hpl

/-- **When the queue is a bounded first-in first-out queue**: with the accesses in the order of the source, as
long as no entry is accepted between the load and the store of `q->len--`. One that is accepted there is lost. -/
theorem queue_agrees_iff (r : Steps.Reach step Calm start s) :
    (s.place.inQindex = false → s.Agrees) ∧ ∀ p idx s', s.step (.enqueue p idx) = some s' →
      ((∀ z, Steps.Reach step Calm s' z → z.place.inQindex = false → z.Agrees) ↔ Calm (.enqueue p idx) s) := by
  have v := inv_of_reach r
  refine ⟨v.agrees, fun p idx s' hs => ⟨fun hall _ hpl => ?_, fun hc z rz => ?_⟩⟩
  · by_contra hlen
    obtain ⟨z, rz, hz, hne⟩ := v.loses hpl hlen hs
    exact hne (hall z rz hz)
  · exact (inv_of_reach ((r.next _ hc hs).trans rz)).agrees

/-- Two entries, the second between the two stores of a `pq_qindex`. -/
def betweenStores : List (Move Nat) :=
  [.enqueue (some 7) 1, .qindex] ++ List.replicate 5 .next ++ [.enqueue (some 8) 2] ++ List.replicate 2 .next

theorem queue_agrees_iff_betweenStores :
    ∃ s : Shared Nat, Steps.Reach step Calm start s ∧ s.fifo.items = [(some 8, 2)] ∧ s.pidx = 1 ∧
      s.place = .idle ∧ s.Agrees := by
  have hrun : (Steps.exec step Calm betweenStores start).map (fun s => (s.fifo.items, s.pidx, s.place)) =
      some ([(some 8, 2)], 1, .idle) := by decide
  obtain ⟨s, r, hs⟩ := Steps.Reach.of_map_exec _ _ hrun
  simp only [Prod.mk.injEq] at hs
  obtain ⟨hitems, hpidx, hidle⟩ := hs
  exact ⟨s, r, hitems, hpidx, hidle, (queue_agrees_iff r).1 (by rw [hidle]; rfl)⟩

/-- The second entry arrives one access later. -/
def betweenLoadAndStore : List (Move Nat) :=
  [.enqueue (some 7) 1, .qindex] ++ List.replicate 6 .next ++ [.enqueue (some 8) 2, .next]

theorem entry_lost :
    ∃ s : Shared Nat, Steps.Reach step Steps.Free start s ∧ s.place = .idle ∧ s.q.toList = [] ∧
      s.fifo.items = [(some 8, 2)] ∧ ¬ s.Agrees := by
  have hrun : (Steps.exec step Steps.Free betweenLoadAndStore start).map (fun s => (s.place, s.q.toList, s.fifo.items)) =
      some (.idle, [], [(some 8, 2)]) := by decide
  obtain ⟨s, r, hs⟩ := Steps.Reach.of_map_exec _ _ hrun
  simp only [Prod.mk.injEq] at hs
  obtain ⟨hidle, hlist, hitems⟩ := hs
  refine ⟨s, r, hidle, hlist, hitems, fun g => ?_⟩
  have := g.items
  rw [hlist, hitems] at this
  cases this

end Shared

end Pqueue

end Picorv32Soc
