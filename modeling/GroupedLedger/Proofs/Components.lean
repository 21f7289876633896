import GroupedLedger.Proofs.ResourceGroups

namespace GroupedLedger

namespace Transaction

/-- Whether a transaction is one for the serial phase: it starts a round, or a contract is there to
take it but it does not spell a call of it. -/
def runsSerially (tx : Transaction) : Bool :=
  match Call.decode tx with
  | .ok .nextRound => true
  | .ok _ => false
  | .error (.unknownMethod _) => true
  | .error (.malformedParams ..) => true
  | .error (.unknownContract _) => false

def isStray (tx : Transaction) : Bool :=
  tx.target != tokenContract && tx.target != consensusContract

def isTokenCall (tx : Transaction) : Bool :=
  match Call.decode tx with
  | .ok call => !call.isSystem
  | .error _ => false

/-- The keys that tie a token call to others: its own, and its sender's balance. -/
def ties (tx : Transaction) : List Key := tx.resources ++ [Key.balance tx.sender]

theorem balance_mem_ties (tx : Transaction) : Key.balance tx.sender ∈ tx.ties :=
  List.mem_append_right _ (List.mem_singleton.mpr rfl)

end Transaction

namespace Route

theorem of_serial (tx : Transaction) : (Route.of tx == .serial) = tx.runsSerially := by
  unfold Route.of Transaction.runsSerially
  cases Call.decode tx with
  | ok call => cases call <;> rfl
  | error error => cases error <;> rfl

theorem of_unroutable (tx : Transaction) : (Route.of tx == .unroutable) = tx.isStray := by
  unfold Route.of Transaction.isStray Call.decode
  by_cases consensus : tx.target = consensusContract
  · rw [if_pos consensus]
    by_cases method : tx.method = "NextRound" <;> simp [consensus, method, Call.isSystem]
  · rw [if_neg consensus]
    by_cases token : tx.target = tokenContract
    · rw [if_pos token]
      cases found : Call.ofTokenMethod tx.method tx.params with
      | ok call => cases call <;> simp [token, Call.isSystem]
      | error error =>
        cases error with
        | unknownContract address =>
          exact absurd found (Call.ofTokenMethod_ne_unknownContract _ _ _)
        | unknownMethod method => simp [token]
        | malformedParams method length => simp [token]
    · rw [if_neg token]
      simp [token, consensus]

theorem keys?_of (tx : Transaction) :
    (Route.of tx).keys? = if tx.isTokenCall then some tx.ties else none := by
  unfold Route.of Transaction.isTokenCall Transaction.ties Transaction.resources
  cases Call.decode tx with
  | ok call => cases call <;> rfl
  | error error => cases error <;> rfl

end Route

namespace Grouping

/-- The token calls of a block, each with its place in the block. -/
def tokenCalls (transactions : List Transaction) : List (Transaction × Nat) :=
  transactions.zipIdx.filter fun entry => entry.1.isTokenCall

/-- A partition of a block by route, with the token calls in the classes of a relation. The groups
come with the places of their members in the block. -/
structure Splits (same : Transaction → Transaction → Prop) (transactions : List Transaction)
    (partition : Partition) (groups : List (List (Transaction × Nat))) : Prop where
  serial : partition.serial = transactions.filter Transaction.runsSerially
  unroutable : partition.unroutable = transactions.filter Transaction.isStray
  grouped : partition.groups = groups.map (List.map Prod.fst)
  classes : Classes (fun a b => same a.1 b.1) (tokenCalls transactions) groups

/-- A chain of token calls of the block leads from one transaction to the other, with a key in
common at every link. -/
def Linked (transactions : List Transaction) : Transaction → Transaction → Prop :=
  Relation.ReflTransGen fun a b =>
    (a ∈ transactions ∧ a.isTokenCall) ∧ (b ∈ transactions ∧ b.isTokenCall) ∧
      ∃ key, key ∈ a.ties ∧ key ∈ b.ties

section TokenCalls

variable {transactions : List Transaction} {a b : Transaction} {i j : Nat}

theorem tokenCalls_fst (transactions : List Transaction) :
    (tokenCalls transactions).map Prod.fst = transactions.filter Transaction.isTokenCall := by
  have placed := List.filter_map (p := Transaction.isTokenCall) (f := Prod.fst)
    (l := transactions.zipIdx)
  rw [List.zipIdx_map_fst] at placed
  exact placed.symm

theorem calls_eq (transactions : List Transaction) :
    calls transactions = (tokenCalls transactions).map fun entry => (entry.1, entry.1.ties) := by
  have listed : calls transactions =
      (transactions.filter Transaction.isTokenCall).map fun tx => (tx, tx.ties) := by
    rw [calls, ← List.filterMap_eq_map, List.filterMap_filter]
    apply List.filterMap_congr
    intro tx _
    rw [Route.keys?_of]
    cases tx.isTokenCall <;> rfl
  rw [listed, ← tokenCalls_fst, List.map_map]
  rfl

theorem calls_snd (transactions : List Transaction) :
    (calls transactions).map Prod.snd =
      (transactions.filter Transaction.isTokenCall).map Transaction.ties := by
  rw [calls_eq, ← tokenCalls_fst, List.map_map, List.map_map]
  rfl

theorem names_calls_iff {key : Key} :
    Names ((calls transactions).map Prod.snd) key i ↔
      ∃ tx, (transactions.filter Transaction.isTokenCall)[i]? = some tx ∧ key ∈ tx.ties := by
  rw [calls_snd]
  constructor
  · rintro ⟨own, here, mem⟩
    rw [List.getElem?_map] at here
    obtain ⟨tx, found, rfl⟩ := Option.map_eq_some_iff.mp here
    exact ⟨tx, found, mem⟩
  · rintro ⟨tx, found, mem⟩
    exact ⟨tx.ties, by rw [List.getElem?_map, found, Option.map_some], mem⟩

theorem mem_of_token (here : (transactions.filter Transaction.isTokenCall)[i]? = some a) :
    a ∈ transactions ∧ a.isTokenCall :=
  List.mem_filter.mp (List.mem_of_getElem? here)

theorem linked_of_chained (chain : Chained ((calls transactions).map Prod.snd) i j)
    (first : (transactions.filter Transaction.isTokenCall)[i]? = some a)
    (last : (transactions.filter Transaction.isTokenCall)[j]? = some b) :
    Linked transactions a b := by
  induction chain generalizing b with
  | refl =>
    rw [first] at last
    cases last
    exact .refl
  | tail _ shared ih =>
    obtain ⟨key, before, after⟩ := shared
    obtain ⟨c, middle, ownC⟩ := names_calls_iff.mp before
    obtain ⟨d, found, ownD⟩ := names_calls_iff.mp after
    rw [found] at last
    cases last
    exact .tail (ih middle) ⟨mem_of_token middle, mem_of_token found, key, ownC, ownD⟩

/-- Of a linked pair any two occurrences are chained: equal calls have their keys in common. -/
theorem chained_of_linked (link : Linked transactions a b)
    (first : (transactions.filter Transaction.isTokenCall)[i]? = some a)
    (last : (transactions.filter Transaction.isTokenCall)[j]? = some b) :
    Chained ((calls transactions).map Prod.snd) i j := by
  induction link generalizing j with
  | refl =>
    exact .single ⟨_, names_calls_iff.mpr ⟨a, first, a.balance_mem_ties⟩,
      names_calls_iff.mpr ⟨a, last, a.balance_mem_ties⟩⟩
  | tail _ step ih =>
    obtain ⟨⟨mem, token⟩, _, key, ownC, ownD⟩ := step
    obtain ⟨k, middle⟩ := List.getElem?_of_mem (List.mem_filter.mpr ⟨mem, token⟩)
    exact .tail (ih middle) ⟨key, names_calls_iff.mpr ⟨_, middle, ownC⟩,
      names_calls_iff.mpr ⟨_, last, ownD⟩⟩

end TokenCalls

namespace Splits

variable {same : Transaction → Transaction → Prop} {transactions : List Transaction}
  {partition : Partition} {groups : List (List (Transaction × Nat))}

theorem groups_ne_nil (h : Splits same transactions partition groups) :
    ∀ group ∈ partition.groups, group ≠ [] := by
  intro group mem empty
  rw [h.grouped] at mem
  obtain ⟨members, hm, rfl⟩ := List.mem_map.mp mem
  exact h.classes.filled members hm (List.map_eq_nil_iff.mp empty)

theorem perm (h : Splits same transactions partition groups) :
    partition.toList.Perm transactions := by
  have tokens : partition.groups.flatten.Perm ((calls transactions).map Prod.fst) := by
    rw [h.grouped, ← List.map_flatten, calls_eq, List.map_map]
    exact h.classes.once.map Prod.fst
  have serial : transactions.filter (Route.of · == .serial) = partition.serial := by
    rw [h.serial]
    exact List.filter_congr fun tx _ => Route.of_serial tx
  have unroutable : transactions.filter (Route.of · == .unroutable) = partition.unroutable := by
    rw [h.unroutable]
    exact List.filter_congr fun tx _ => Route.of_unroutable tx
  have sorted := (shuffle_routes transactions).perm
  rw [serial, unroutable] at sorted
  exact ((tokens.append_right _).append_left _).trans sorted.symm

theorem fault (h : Splits same transactions partition groups) :
    partition.fault? (transactions.map Transaction.id) = none :=
  Partition.fault?_eq_none_iff.mpr ⟨h.groups_ne_nil, h.perm.map Transaction.id⟩

end Splits
end Grouping

namespace Grouper

open Grouping

theorem partition_splits {groups : List (Transaction × List Key) → List (List Transaction)}
    {transactions : List Transaction} {same : Transaction → Transaction → Prop}
    {placed : List (List (Transaction × Nat))}
    (grouped : groups (calls transactions) = placed.map (List.map Prod.fst))
    (classes : Classes (fun a b => same a.1 b.1) (tokenCalls transactions) placed) :
    Splits same transactions (partition groups transactions) placed := by
  rw [partition_eq]
  refine ⟨?_, ?_, grouped, classes⟩
  · exact List.filter_congr fun tx _ => Route.of_serial tx
  · exact List.filter_congr fun tx _ => Route.of_unroutable tx

/-- The token calls of a block, with their places, in classes of calls under one root. -/
def placedComponents (transactions : List Transaction) : List (List (Transaction × Nat)) :=
  (gather (fun entry => (tied ((calls transactions).map Prod.snd)).root entry.2)
    (tokenCalls transactions).zipIdx).map (List.map Prod.fst)

theorem components_eq (transactions : List Transaction) :
    components transactions = (placedComponents transactions).map (List.map Prod.fst) := by
  have listed : (calls transactions).zipIdx = (tokenCalls transactions).zipIdx.map fun entry =>
      ((entry.1.1, entry.1.1.ties), entry.2) := by
    rw [calls_eq, List.zipIdx_map]
    rfl
  rw [components, listed, gather_map, placedComponents, List.map_map, List.map_map]
  congr 1
  funext group
  simp

theorem placedComponents_classes (transactions : List Transaction) :
    Classes (fun a b => Linked transactions a.1 b.1) (tokenCalls transactions)
      (placedComponents transactions) := by
  -- Roots belong to places among the token calls, chains to the transactions there.
  have here : ∀ entry ∈ (tokenCalls transactions).zipIdx,
      (transactions.filter Transaction.isTokenCall)[entry.2]? = some entry.1.1 := by
    intro entry mem
    rw [← tokenCalls_fst, List.getElem?_map, List.mem_zipIdx_iff_getElem?.mp mem, Option.map_some]
  have linked : ∀ a ∈ (tokenCalls transactions).zipIdx, ∀ b ∈ (tokenCalls transactions).zipIdx,
      (tied ((calls transactions).map Prod.snd)).root a.2 =
          (tied ((calls transactions).map Prod.snd)).root b.2 ↔
        Linked transactions a.1.1 b.1.1 := by
    intro a ha b hb
    rw [tied_root_iff]
    exact ⟨fun chain => linked_of_chained chain (here a ha) (here b hb),
      fun link => chained_of_linked link (here a ha) (here b hb)⟩
  have classes : Classes (fun a b => Linked transactions a.1 b.1)
      ((tokenCalls transactions).zipIdx.map Prod.fst) (placedComponents transactions) :=
    (gather_classes _ _).map Prod.fst linked
  rwa [List.zipIdx_map_fst] at classes

theorem byResource_splits (context : ChainContext) (transactions : List Transaction) :
    Splits (Linked transactions) transactions (byResource context transactions)
      (placedComponents transactions) :=
  partition_splits ((collect_roots transactions).trans (components_eq transactions))
    (placedComponents_classes transactions)

theorem byResource_unshared (context : ChainContext) (transactions : List Transaction) :
    (byResource context transactions).groups.Pairwise fun earlier later =>
      ∀ a ∈ earlier, ∀ b ∈ later, ∀ key ∈ a.ties, key ∉ b.ties := by
  have keys : ∀ call ∈ (calls transactions).zipIdx, call.1.2 = call.1.1.ties := by
    intro call mem
    have listed := List.fst_mem_of_mem_zipIdx mem
    rw [calls_eq] at listed
    obtain ⟨entry, _, he⟩ := List.mem_map.mp listed
    rw [← he]
  rw [byResource_eq]
  refine components_pairwise fun call hc other ho different key own => ?_
  rw [← keys call hc] at own
  rw [← keys other ho]
  exact unshared_of_component hc ho different own

/-- Grouping by resources computes the connected components: the serial and the unroutable
transactions are told by what they decode to, and the token calls are in one group exactly if a
chain of shared keys links them. So every transaction is in the partition once, and no key of one
group occurs in another. -/
theorem byResource_components (context : ChainContext) (transactions : List Transaction) :
    let partition := byResource context transactions
    ∃ components,
      Splits (Linked transactions) transactions partition components ∧
      partition.toList.Perm transactions ∧
      partition.fault? (transactions.map Transaction.id) = none ∧
      partition.groups.Pairwise fun earlier later =>
        ∀ a ∈ earlier, ∀ b ∈ later, ∀ key ∈ a.ties, key ∉ b.ties := by
  have splits := byResource_splits context transactions
  exact ⟨_, splits, splits.perm, splits.fault, byResource_unshared context transactions⟩

end Grouper
end GroupedLedger
