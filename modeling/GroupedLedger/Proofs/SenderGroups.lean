import GroupedLedger.Proofs.Components

namespace GroupedLedger

namespace Grouping

/-- The token calls of a block, with their places, in classes of calls from one sender. -/
def placedSenders (transactions : List Transaction) : List (List (Transaction × Nat)) :=
  gather (fun entry => entry.1.sender) (tokenCalls transactions)

theorem nodup_tokenCalls (transactions : List Transaction) : (tokenCalls transactions).Nodup := by
  apply List.Nodup.filter
  apply List.Nodup.of_map Prod.snd
  rw [List.zipIdx_map_snd]
  exact List.nodup_range'

theorem collect_senders (transactions : List Transaction) :
    collect ((numbered ∅ ((calls transactions).map fun call => call.1.sender)).zip
      ((calls transactions).map Prod.fst)) =
        gather Transaction.sender (transactions.filter Transaction.isTokenCall) := by
  have calls : (calls transactions).map Prod.fst = transactions.filter Transaction.isTokenCall := by
    rw [calls_eq, ← tokenCalls_fst, List.map_map]
    rfl
  rw [← calls, ← collect_numbered, List.map_map]
  rfl

end Grouping

namespace Grouper

open Grouping

theorem bySender_groups (context : ChainContext) (transactions : List Transaction) :
    (bySender context transactions).groups =
      gather Transaction.sender (transactions.filter Transaction.isTokenCall) := by
  rw [bySender, partition_eq]
  exact collect_senders transactions

theorem bySender_splits (context : ChainContext) (transactions : List Transaction) :
    Splits (fun a b => a.sender = b.sender) transactions (bySender context transactions)
      (placedSenders transactions) := by
  apply partition_splits
  · rw [collect_senders, ← tokenCalls_fst, gather_map, placedSenders]
  · exact gather_classes _ _

theorem bySender_order (context : ChainContext) (transactions : List Transaction) :
    ((bySender context transactions).groups.map fun group => group.head?.map Transaction.sender) =
      ((transactions.filter Transaction.isTokenCall).map Transaction.sender).eraseDups.map some := by
  rw [bySender_groups, gather_heads]

theorem linked_of_sender {transactions : List Transaction} {a b : Transaction × Nat}
    (ha : a ∈ tokenCalls transactions) (hb : b ∈ tokenCalls transactions)
    (same : a.1.sender = b.1.sender) : Linked transactions a.1 b.1 := by
  have token : ∀ entry ∈ tokenCalls transactions, entry.1 ∈ transactions ∧ entry.1.isTokenCall := by
    intro entry mem
    obtain ⟨listed, token⟩ := List.mem_filter.mp mem
    exact ⟨List.fst_mem_of_mem_zipIdx listed, token⟩
  exact .single ⟨token a ha, token b hb, Key.balance a.1.sender, a.1.balance_mem_ties,
    same ▸ b.1.balance_mem_ties⟩

/-- Grouping by sender routes as grouping by resources does and splits the token calls exactly by
sender, in the order in which the senders come up. Nothing is lost or doubled, and every group lies
within one group by resources. -/
theorem bySender_exact (context : ChainContext) (transactions : List Transaction) :
    let partition := bySender context transactions
    let byResource := byResource context transactions
    partition.serial = byResource.serial ∧ partition.unroutable = byResource.unroutable ∧
    partition.toList.Perm transactions ∧
    partition.fault? (transactions.map Transaction.id) = none ∧
    (partition.groups.map fun group => group.head?.map Transaction.sender) =
      ((transactions.filter Transaction.isTokenCall).map Transaction.sender).eraseDups.map some ∧
    ∃ senders components,
      Splits (fun a b => a.sender = b.sender) transactions partition senders ∧
      Splits (Linked transactions) transactions byResource components ∧
      ∀ group ∈ senders, ∃! component, component ∈ components ∧ group ⊆ component := by
  have senders := bySender_splits context transactions
  have components := byResource_splits context transactions
  refine ⟨senders.serial.trans components.serial.symm,
    senders.unroutable.trans components.unroutable.symm, senders.perm, senders.fault,
    bySender_order context transactions, _, _, senders, components, ?_⟩
  exact senders.classes.refines components.classes (nodup_tokenCalls transactions)
    fun a ha b hb same => linked_of_sender ha hb same

end Grouper
end GroupedLedger
