import GroupedLedger.Proofs.Completeness

namespace GroupedLedger

/-- A split of the block with these ids: no group is empty, and every id is there as often as in the
block. -/
structure Partition.Exact (partition : Partition) (block : List Digest) : Prop where
  filled : ∀ group ∈ partition.groups, group ≠ []
  whole : ((partition.serial ++ partition.groups.flatten ++ partition.unroutable).map
    Transaction.id).Perm block

/-- What a fault says about a partition of the block with these ids. Each kind of fault is looked
for once there is none of the kinds before it. -/
def PartitionFault.Describes (partition : Partition) (block : List Digest) : PartitionFault → Prop
  | .emptyGroup group =>
    partition.groups[group]? = some [] ∧ ∀ earlier < group, partition.groups[earlier]? ≠ some []
  | .wrongSize held size =>
    [] ∉ partition.groups ∧ held = partition.size ∧ size = block.length ∧ held ≠ size
  | .foreign id =>
    [] ∉ partition.groups ∧ partition.size = block.length ∧
      ∃ before after, partition.toList.map Transaction.id = before ++ id :: after ∧
        (∀ other, before.count other ≤ block.count other) ∧ before.count id = block.count id

namespace Partition

variable {partition : Partition} {block : List Digest} {fault : PartitionFault}

theorem findIdx?_isEmpty_eq_some_iff {α : Type} {groups : List (List α)} {group : Nat} :
    groups.findIdx? List.isEmpty = some group ↔
      groups[group]? = some [] ∧ ∀ earlier < group, groups[earlier]? ≠ some [] := by
  rw [List.findIdx?_eq_some_iff_getElem]
  constructor
  · rintro ⟨inside, empty, first⟩
    refine ⟨by rw [List.getElem?_eq_getElem inside, List.isEmpty_iff.mp empty], ?_⟩
    intro earlier before found
    obtain ⟨_, found⟩ := List.getElem?_eq_some_iff.mp found
    exact first earlier before (List.isEmpty_iff.mpr found)
  · rintro ⟨found, first⟩
    obtain ⟨inside, found⟩ := List.getElem?_eq_some_iff.mp found
    refine ⟨inside, List.isEmpty_iff.mpr found, ?_⟩
    intro earlier before empty
    apply first earlier before
    rw [List.getElem?_eq_getElem (Nat.lt_trans before inside), List.isEmpty_iff.mp empty]

/-- The fault that is found is the one that describes the partition. -/
theorem fault?_eq_some_iff : partition.fault? block = some fault ↔ fault.Describes partition block := by
  unfold fault?
  split
  · rename_i group found
    have empty : [] ∈ partition.groups :=
      List.mem_of_getElem? (findIdx?_isEmpty_eq_some_iff.mp found).1
    rw [Option.some.injEq]
    cases fault with
    | emptyGroup other =>
      rw [PartitionFault.emptyGroup.injEq, PartitionFault.Describes,
        ← findIdx?_isEmpty_eq_some_iff, found, Option.some.injEq]
    | wrongSize held size => exact iff_of_false nofun fun h => h.1 empty
    | foreign id => exact iff_of_false nofun fun h => h.1 empty
  · rename_i filled
    have none : [] ∉ partition.groups := fun mem =>
      Bool.false_ne_true (List.findIdx?_eq_none_iff.mp filled [] mem).symm
    have notEmpty : ∀ group, ¬ (PartitionFault.emptyGroup group).Describes partition block :=
      fun group h => none (List.mem_of_getElem? h.1)
    split
    · rename_i different
      rw [Option.some.injEq]
      cases fault with
      | emptyGroup group => exact iff_of_false nofun (notEmpty group)
      | wrongSize held size =>
        rw [PartitionFault.wrongSize.injEq, PartitionFault.Describes]
        constructor
        · rintro ⟨rfl, rfl⟩
          exact ⟨none, rfl, rfl, different⟩
        · rintro ⟨_, rfl, rfl, _⟩
          exact ⟨rfl, rfl⟩
      | foreign id => exact iff_of_false nofun fun h => different h.2.1
    · rename_i same
      -- Only the counts are left to decide.
      rw [Decidable.not_not] at same
      rw [Option.map_eq_some_iff]
      cases fault with
      | emptyGroup group => exact iff_of_false (by simp) (notEmpty group)
      | wrongSize held size =>
        refine iff_of_false (by simp) ?_
        rintro ⟨_, rfl, rfl, different⟩
        exact different same
      | foreign id =>
        simp only [PartitionFault.foreign.injEq, exists_eq_right, foreign?_eq_some_iff, getD_counts,
          PartitionFault.Describes, none, same, not_false_eq_true, true_and]

theorem fault?_eq_none_iff_exact : partition.fault? block = none ↔ partition.Exact block := by
  have listed : partition.serial ++ partition.groups.flatten ++ partition.unroutable =
      partition.toList := List.append_assoc _ _ _
  rw [fault?_eq_none_iff, ← listed]
  exact ⟨fun h => ⟨h.1, h.2⟩, fun h => ⟨h.filled, h.whole⟩⟩

theorem exists_fault (inexact : ¬ partition.Exact block) :
    ∃ fault : PartitionFault, partition.fault? block = some fault :=
  Option.ne_none_iff_exists'.mp (mt fault?_eq_none_iff_exact.mp inexact)

end Partition

namespace Engine

/-- The check passes exactly the partitions that split the block, and names the first fault of any
other. A block whose signal is down at first blames its grouper exactly if the partition does not
split it; it then names that fault, and nothing has been executed. -/
theorem run_validates (engine : Engine) :
    (∀ (partition : Partition) (block : List Digest),
      (partition.fault? block = none ↔ partition.Exact block) ∧
      ∀ fault, partition.fault? block = some fault ↔ fault.Describes partition block) ∧
    ∀ transactions header base prior token events,
      let partition := engine.partition header transactions
      let ids := transactions.map Transaction.id
      let run := engine.run transactions header base prior token events
      (token.poll.1 = true → run = { outcome := .error .cancelled }) ∧
      (token.poll.1 = false → ¬ partition.Exact ids →
        ∃ fault : PartitionFault, fault.Describes partition ids ∧
          run = { outcome := .error (.grouperContract fault.message),
                  context := some (.ofHeader header), calls := [] }) ∧
      ∀ reason, run.outcome = .error (.grouperContract reason) →
        token.poll.1 = false ∧ ¬ partition.Exact ids := by
  constructor
  · intro partition block
    exact ⟨Partition.fault?_eq_none_iff_exact, fun fault => Partition.fault?_eq_some_iff⟩
  · intro transactions header base prior token events partition ids run
    refine ⟨run_of_up, ?_, ?_⟩
    · intro down inexact
      obtain ⟨fault, found⟩ := Partition.exists_fault inexact
      exact ⟨fault, Partition.fault?_eq_some_iff.mp found, run_of_fault down found⟩
    · intro reason blamed
      have down : token.poll.1 = false := by
        refine Bool.eq_false_iff.mpr fun up => ?_
        rw [show run = _ from run_of_up up] at blamed
        cases blamed
      refine ⟨down, fun exact => ?_⟩
      cases execute_error_of_valid down (Partition.fault?_eq_none_iff_exact.mpr exact) blamed

/-- One payment is dropped and the other one listed twice, so the number of transactions is right.
-/
theorem sample_validates :
    let engine : Engine := { Sample.engine with
      grouper _ _ := ⟨[Sample.nextRound], [[Sample.payBob], [Sample.payBob]], [Sample.stray]⟩ }
    engine.run Sample.block Sample.header Sample.genesis.view none .quiet [] =
      { outcome := .error (.grouperContract (PartitionFault.foreign Sample.payBob.id).message),
        context := some (.ofHeader Sample.header), calls := [] } := by
  intro engine
  have found : (engine.partition Sample.header Sample.block).fault?
      (Sample.block.map Transaction.id) = some (.foreign Sample.payBob.id) := by
    decide +kernel
  obtain ⟨decided, ran⟩ := run_validates engine
  obtain ⟨exact, named⟩ := decided (engine.partition Sample.header Sample.block)
    (Sample.block.map Transaction.id)
  obtain ⟨_, rejects, _⟩ := ran Sample.block Sample.header Sample.genesis.view none .quiet []
  obtain ⟨fault, described, rejected⟩ := rejects rfl (mt exact.mpr (by rw [found]; nofun))
  cases found.symm.trans ((named fault).mpr described)
  exact rejected

end Engine
end GroupedLedger
