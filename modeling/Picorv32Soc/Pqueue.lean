import Picorv32Soc.Cyclic

/-!
# `pqueue.c`

The queue of received packets: a circular buffer of pointers with a mask beside each. `pq_dequeue`
only looks at the oldest entry; it is `pq_qindex` that removes it.

`toList` is the abstract queue. `Wf` says that the redundant `head` agrees with `tail` and `len`; in
such a queue the operations are those of a list.
-/

namespace Picorv32Soc

def pqQueueSize : Nat := 8

/-- `pq_queue_t`; a `NULL` pointer is `none`. -/
structure Pqueue (α : Type*) where
  data : Nat → Option α
  index : Nat → BitVec 32
  head : Nat
  tail : Nat
  len : Nat

namespace Pqueue
variable {α : Type*} {q : Pqueue α} {p : Option α} {idx : BitVec 32}

/-- `pq_create_queue`: the queues are static, so their arrays are zero. -/
def create : Pqueue α where
  data := fun _ => none
  index := fun _ => 0
  head := 0
  tail := 0
  len := 0

/-- `pq_enqueue`, with its result. -/
def enqueue (q : Pqueue α) (p : Option α) (idx : BitVec 32) : Int × Pqueue α :=
  if q.len = pqQueueSize then (-1, q)
  else (0, {
    data := Function.update q.data q.head p
    index := Function.update q.index q.head idx
    head := (q.head + 1) % pqQueueSize
    tail := q.tail
    len := q.len + 1 })

def dequeue (q : Pqueue α) : Option α := if q.len = 0 then none else q.data q.tail

def qindex (q : Pqueue α) : BitVec 32 × Pqueue α :=
  if q.len = 0 then (0, q)
  else (q.index q.tail, { q with tail := (q.tail + 1) % pqQueueSize, len := q.len - 1 })

def qlength (q : Pqueue α) : Nat := q.len

/-- The entries, the oldest first. -/
def toList (q : Pqueue α) : List (Option α × BitVec 32) :=
  Cyclic.window pqQueueSize (fun i => (q.data i, q.index i)) q.tail q.len

@[simp] theorem length_toList : q.toList.length = q.len := Cyclic.length_window

/-- `head`, `tail` and `len` agree. -/
structure Wf (q : Pqueue α) : Prop where
  le : q.len ≤ pqQueueSize
  tail_lt : q.tail < pqQueueSize
  head_eq : q.head = (q.tail + q.len) % pqQueueSize

theorem wf_create : (create : Pqueue α).Wf := ⟨Nat.zero_le _, Nat.zero_lt_succ _, rfl⟩

theorem Wf.enqueue (w : q.Wf) : (q.enqueue p idx).2.Wf := by
  unfold Pqueue.enqueue
  split_ifs with hl
  · exact w
  · refine ⟨Nat.lt_of_le_of_ne w.le hl, w.tail_lt, ?_⟩
    show (q.head + 1) % _ = (q.tail + (q.len + 1)) % _
    rw [w.head_eq, Nat.mod_add_mod, Nat.add_assoc]

theorem Wf.toList_enqueue (w : q.Wf) (hl : q.len < pqQueueSize) :
    (q.enqueue p idx).2.toList = q.toList ++ [(p, idx)] := by
  have hcells : (fun i => (Function.update q.data q.head p i, Function.update q.index q.head idx i)) =
      Function.update (fun i => (q.data i, q.index i)) ((q.tail + q.len) % pqQueueSize) (p, idx) := by
    rw [w.head_eq]
    funext i
    simp only [Function.update_apply]
    split_ifs <;> rfl
  rw [Pqueue.enqueue, if_neg (Nat.ne_of_lt hl), toList, toList, ← Cyclic.window_push hl, ← hcells]

theorem Wf.toList_eq_cons (w : q.Wf) (hl : q.len ≠ 0) :
    q.toList = (q.data q.tail, q.index q.tail) :: q.qindex.2.toList := by
  obtain ⟨n, hn⟩ := Nat.exists_eq_succ_of_ne_zero hl
  rw [toList, hn, Cyclic.window_pop, Nat.mod_eq_of_lt w.tail_lt, qindex, if_neg hl, toList]
  simp only [hn, Nat.succ_eq_add_one, Nat.add_sub_cancel]

theorem Wf.qindex (w : q.Wf) : q.qindex.2.Wf := by
  unfold Pqueue.qindex
  split_ifs with hl
  · exact w
  · refine ⟨Nat.le_trans (Nat.sub_le ..) w.le, Nat.mod_lt _ (by decide), ?_⟩
    show q.head = ((q.tail + 1) % _ + (q.len - 1)) % _
    rw [w.head_eq, Nat.mod_add_mod, Nat.add_assoc, Nat.add_sub_cancel' (Nat.pos_of_ne_zero hl)]

variable {e : Option α × BitVec 32} {l : List (Option α × BitVec 32)}

theorem Wf.pop (w : q.Wf) (h : q.toList = e :: l) :
    q.dequeue = e.1 ∧ q.qindex.1 = e.2 ∧ q.qindex.2.toList = l := by
  have hl : q.len ≠ 0 := by
    intro h0
    have := congrArg List.length h
    rw [length_toList, h0] at this
    cases this
  rw [w.toList_eq_cons hl, List.cons.injEq] at h
  obtain ⟨rfl, rfl⟩ := h
  exact ⟨if_neg hl, by rw [Pqueue.qindex, if_neg hl], rfl⟩

end Pqueue

end Picorv32Soc
