import GroupedLedger.WorkQueue

namespace GroupedLedger.WorkQueue

theorem order_perm (sizes : List Nat) : (order sizes).Perm (List.range sizes.length) := by
  have hp := (List.mergeSort_perm sizes.zipIdx fun a b => b.1 ≤ a.1).map Prod.snd
  have hs : sizes.zipIdx.map Prod.snd = List.range sizes.length := by
    rw [List.zipIdx_map_snd, List.range_eq_range']
  rw [hs] at hp
  exact hp

theorem nodup_order (sizes : List Nat) : (order sizes).Nodup :=
  (order_perm sizes).nodup_iff.mpr List.nodup_range

/-- The queue's order: from large to small, and from low to high among groups of one size. -/
theorem order_pairwise (sizes : List Nat) :
    (order sizes).Pairwise fun a b =>
      sizes.getD b 0 < sizes.getD a 0 ∨ sizes.getD a 0 = sizes.getD b 0 ∧ a < b := by
  let le (a b : Nat × Nat) : Bool := b.1 ≤ a.1
  have stable : order sizes = ((sizes.zipIdx.zipIdx.mergeSort (List.zipIdxLE le)).map
      fun entry => entry.1).map Prod.snd := by
    rw [List.mergeSort_zipIdx]
    rfl
  have sorted : (sizes.zipIdx.zipIdx.mergeSort (List.zipIdxLE le)).Pairwise fun a b =>
      List.zipIdxLE le a b = true := by
    apply List.pairwise_mergeSort
    · exact List.zipIdxLE_trans fun a b c hab hbc => by
        simp only [le, decide_eq_true_eq] at hab hbc ⊢
        omega
    · exact List.zipIdxLE_total fun a b => by
        simp only [le, Bool.or_eq_true, decide_eq_true_eq]
        omega
  have placed : ∀ entry ∈ sizes.zipIdx.zipIdx.mergeSort (List.zipIdxLE le),
      entry.1.2 = entry.2 ∧ sizes.getD entry.1.2 0 = entry.1.1 := by
    intro entry hm
    have here := List.mem_zipIdx_iff_getElem?.mp (List.mem_mergeSort.mp hm)
    rw [List.getElem?_zipIdx, Option.map_eq_some_iff] at here
    obtain ⟨size, held, he⟩ := here
    rw [← he]
    simp [List.getD_eq_getElem?_getD, held]
  have ordered : (order sizes).Pairwise fun a b =>
      sizes.getD b 0 < sizes.getD a 0 ∨ sizes.getD a 0 = sizes.getD b 0 ∧ a ≤ b := by
    rw [stable, List.pairwise_map, List.pairwise_map]
    refine sorted.imp_of_mem fun {a b} ha hb below => ?_
    obtain ⟨ia, sa⟩ := placed a ha
    obtain ⟨ib, sb⟩ := placed b hb
    simp only [List.zipIdxLE, le, decide_eq_true_eq] at below
    rw [sa, sb, ia, ib]
    split at below
    · split at below
      · exact .inr ⟨by omega, of_decide_eq_true below⟩
      · exact .inl (by omega)
    · cases below
  refine (ordered.and (nodup_order sizes)).imp fun {a b} ⟨below, ne⟩ =>
    below.imp_right fun ⟨same, le⟩ => ?_
  exact ⟨same, Nat.lt_of_le_of_ne le ne⟩

/-- What may be asked of a queue. Each request is served as a whole, whoever makes it. -/
inductive Request where
  | next
  | halt

/-- Serves requests one after the other: the answers to those for a group, and the queue in the
end. -/
def serve (queue : WorkQueue) : List Request → List (Option Nat) × WorkQueue
  | [] => ([], queue)
  | .next :: rest =>
    let (answer, queue) := queue.next
    let (answers, queue) := queue.serve rest
    (answer :: answers, queue)
  | .halt :: rest => queue.halt.serve rest

def handedOut (queue : WorkQueue) (requests : List Request) : List Nat :=
  (queue.serve requests).1.filterMap id

def after (queue : WorkQueue) (requests : List Request) : WorkQueue := (queue.serve requests).2

@[simp] theorem after_nil (queue : WorkQueue) : queue.after [] = queue := rfl

@[simp] theorem after_halt (queue : WorkQueue) (rest : List Request) :
    queue.after (.halt :: rest) = queue.halt.after rest := rfl

@[simp] theorem after_next (queue : WorkQueue) (rest : List Request) :
    queue.after (.next :: rest) = queue.next.2.after rest := rfl

@[simp] theorem handedOut_next (queue : WorkQueue) (rest : List Request) :
    queue.handedOut (.next :: rest) = queue.next.1.toList ++ queue.next.2.handedOut rest := by
  cases answer : queue.next.1 <;> simp [handedOut, serve, answer]

variable {queue : WorkQueue}

theorem next_eq_none_iff : queue.next.1 = none ↔ queue.halted = true ∨ queue.ready = [] := by
  obtain ⟨ready, halted⟩ := queue
  cases halted <;> cases ready <;> simp [next, take]

theorem ready_next (queue : WorkQueue) : queue.ready = queue.next.1.toList ++ queue.next.2.ready := by
  obtain ⟨ready, halted⟩ := queue
  cases halted <;> cases ready <;> simp [next, take]

theorem halted_next (queue : WorkQueue) : queue.next.2.halted = queue.halted := by
  obtain ⟨ready, halted⟩ := queue
  cases halted <;> cases ready <;> simp [next, take]

/-- Serving requests cuts the queue in two: what is handed out and what is left. -/
theorem ready_serve (queue : WorkQueue) (requests : List Request) :
    queue.ready = queue.handedOut requests ++ (queue.after requests).ready := by
  induction requests generalizing queue with
  | nil => rfl
  | cons request rest ih =>
    cases request with
    | halt => exact ih queue.halt
    | next =>
      rw [handedOut_next, after_next, List.append_assoc, ← ih queue.next.2]
      exact ready_next queue

/-- Only a halt halts a queue. -/
theorem halted_serve (queue : WorkQueue) (requests : List Request) :
    (queue.after requests).halted = true ↔ queue.halted = true ∨ .halt ∈ requests := by
  induction requests generalizing queue with
  | nil => simp
  | cons request rest ih =>
    cases request with
    | halt => simp [ih, halt]
    | next => simp [ih, halted_next]

/-- A queue that hands out nothing is halted or empty, and nothing changes that. -/
theorem next_after_of_refused (refused : queue.next.1 = none) (requests : List Request) :
    (queue.after requests).next.1 = none := by
  rw [next_eq_none_iff] at refused ⊢
  rcases refused with halted | empty
  · exact .inl ((halted_serve queue requests).mpr (.inl halted))
  · have parts := ready_serve queue requests
    rw [empty] at parts
    exact .inr (List.append_eq_nil_iff.mp parts.symm).2

/-- The queue for groups of some sizes hands out a first part of their order, from the largest to
the smallest and from low to high among groups of one size, whatever requests it serves. No group is
handed out twice, and those handed out and those that remain are all of them. A request for a group
is refused exactly if a halt came before it or no group is left, and all later ones are refused too.
-/
theorem serve_in_order (sizes : List Nat) (requests : List Request) :
    let handed := (ofSizes sizes).handedOut requests
    let queue := (ofSizes sizes).after requests
    (order sizes).Perm (List.range sizes.length) ∧
    ((order sizes).Pairwise fun a b =>
      sizes.getD b 0 < sizes.getD a 0 ∨ sizes.getD a 0 = sizes.getD b 0 ∧ a < b) ∧
    handed <+: order sizes ∧
    handed.Nodup ∧
    handed.length + queue.remaining = sizes.length ∧
    (queue.next.1 = none ↔ .halt ∈ requests ∨ handed.length = sizes.length) ∧
    (queue.next.1 = none → ∀ later, (queue.next.2.after later).next.1 = none) := by
  intro handed queue
  have parts : order sizes = handed ++ queue.ready := ready_serve (ofSizes sizes) requests
  have counted : handed.length + queue.remaining = sizes.length := by
    have length := (order_perm sizes).length_eq
    rwa [parts, List.length_append, List.length_range] at length
  have cut : handed <+: order sizes := ⟨queue.ready, parts.symm⟩
  refine ⟨order_perm sizes, order_pairwise sizes, cut, cut.sublist.nodup (nodup_order sizes),
    counted, ?_, ?_⟩
  · have halted : queue.halted = true ↔ .halt ∈ requests := by
      simp [queue, halted_serve, ofSizes]
    have empty : queue.ready = [] ↔ handed.length = sizes.length := by
      rw [← List.length_eq_zero_iff, ← counted, remaining]
      omega
    rw [next_eq_none_iff, halted, empty]
  · intro refused later
    exact next_after_of_refused refused (.next :: later)

end GroupedLedger.WorkQueue
