import GroupedLedger.Proofs.ContractBlocks
import GroupedLedger.Proofs.ResourceGroups
import GroupedLedger.Proofs.Serializability

namespace GroupedLedger

/-- What the effect of a transaction in a grouped block has in common with its effect in a batch. A
transaction without a contract fails in both, for a reason of another wording. -/
structure Effect.Matches (tx : Transaction) (effect batched : Effect) : Prop where
  id : effect.id = batched.id
  status : effect.status = batched.status
  writes : effect.writes = batched.writes
  deletes : effect.deletes = batched.deletes
  bloom : effect.bloom = batched.bloom
  receipt_status : effect.receipt.status = batched.receipt.status
  returned : effect.receipt.returned = batched.receipt.returned
  receipt_bloom : effect.receipt.bloom = batched.receipt.bloom
  error : if Route.of tx = .unroutable then
      effect.receipt.error = some "invalid contract address" ∧
        batched.receipt.error = some (CallError.unknownContract tx.target).message
    else effect.receipt.error = batched.receipt.error

theorem Effect.matches_strip {tx : Transaction} (routable : Route.of tx ≠ .unroutable)
    (effect : Effect) (keys : KeySet) : (effect.strip keys).Matches tx effect :=
  ⟨rfl, rfl, rfl, rfl, rfl, rfl, rfl, rfl, by rw [if_neg routable]; rfl⟩

theorem Effect.matches_refl {tx : Transaction} (routable : Route.of tx ≠ .unroutable)
    (effect : Effect) : effect.Matches tx effect :=
  ⟨rfl, rfl, rfl, rfl, rfl, rfl, rfl, rfl, by rw [if_neg routable]⟩

theorem Effect.matches_failed {tx : Transaction} (unroutable : Route.of tx = .unroutable) :
    (failed tx.id invalidContract).Matches tx
      (failed tx.id (CallError.unknownContract tx.target).message) :=
  ⟨rfl, rfl, rfl, rfl, rfl, rfl, rfl, rfl, by rw [if_pos unroutable]; exact ⟨rfl, rfl⟩⟩

/-- A call of an address without a contract fails before it touches anything. -/
theorem Vm.effect_unroutable {tx : Transaction} (unroutable : Route.of tx = .unroutable)
    (below : Lookup) :
    effect below tx = Effect.failed tx.id (CallError.unknownContract tx.target).message := by
  have failing : tx.procedure = .fail (.undecodable (.unknownContract tx.target)) := by
    rw [Transaction.procedure, Route.decode_of_unroutable unroutable]
  rw [effect, transact_eq, failing]
  rfl

theorem Vm.effects_unroutable {transactions : List Transaction}
    (unroutable : ∀ tx ∈ transactions, Route.of tx = .unroutable) (below : Lookup) :
    effects below transactions = transactions.map fun tx =>
      Effect.failed tx.id (CallError.unknownContract tx.target).message := by
  induction transactions generalizing below with
  | nil => rfl
  | cons tx rest ih =>
    rw [effects, effect_unroutable (unroutable tx (by simp)), List.map_cons,
      ih fun other hm => unroutable other (by simp [hm])]

/-- Groups without a common key share only the setting, which none of them changes. -/
theorem speculated_apart (below : Lookup) {groups : List (List Transaction)}
    (apart : groups.Pairwise fun earlier later => ∀ a ∈ earlier, ∀ b ∈ later, a.Apart b) :
    (speculated below groups).Pairwise fun a b =>
      ∀ key ∈ a.accessed, key ∈ b.accessed → key ∈ readOnlyKeys (speculated below groups) := by
  have touching : ∀ (entry : List Transaction × Nat),
      ∀ key ∈ GroupOutcome.accessed ⟨entry.2, Vm.effects below entry.1⟩,
        key = Key.tokenConfig ∨ ∃ tx ∈ entry.1, key ∈ tx.resources := by
    intro entry key touched
    obtain ⟨one, ho, hk⟩ := GroupOutcome.mem_accessed.mp touched
    obtain ⟨tx, ht, found, rfl⟩ := Vm.exists_of_mem_effects ho
    rcases Vm.mem_resources_of_accessed hk with own | setting
    · exact .inr ⟨tx, ht, own⟩
    · exact .inl setting
  have unchanged : ∀ outcome ∈ speculated below groups, Key.tokenConfig ∉ outcome.changed := by
    intro outcome hm changed
    obtain ⟨one, ho, hk⟩ := GroupOutcome.mem_changed.mp changed
    rw [effects_of_mem_speculated hm] at ho
    obtain ⟨tx, _, found, rfl⟩ := Vm.exists_of_mem_effects ho
    exact tx.tokenConfig_not_mem_resources (Vm.mem_resources_of_changed hk)
  have placed : (groups.zipIdx.map Prod.fst).Pairwise fun earlier later =>
      ∀ a ∈ earlier, ∀ b ∈ later, a.Apart b := by
    rwa [List.zipIdx_map_fst]
  rw [List.pairwise_map] at placed
  rw [speculated, List.pairwise_map, ← speculated]
  refine placed.imp_of_mem ?_
  intro earlier later he _ distinct key touched touchedLater
  rcases touching earlier key touched with rfl | ⟨a, ha, ownA⟩
  · exact mem_readOnlyKeys.mpr ⟨⟨_, List.mem_map_of_mem he, touched⟩, unchanged⟩
  · rcases touching later key touchedLater with rfl | ⟨b, hb, ownB⟩
    · exact absurd ownA a.tokenConfig_not_mem_resources
    · exact absurd ownB (distinct a ha b hb key ownA)

theorem Vm.effects_listed (below : Lookup) {partition : Partition}
    (unroutable : ∀ tx ∈ partition.unroutable, Route.of tx = .unroutable) :
    let serially := effects below partition.serial
    effects below partition.toList = serially ++
      (effects ((Overlay.ofEffects serially).onto below) partition.groups.flatten ++
        partition.unroutable.map fun tx =>
          Effect.failed tx.id (CallError.unknownContract tx.target).message) := by
  intro serially
  rw [Partition.toList, effects_append, effects_append, effects_unroutable unroutable]

/-- The effects of a grouped block, part by part, match those of the same transactions run as one
batch. -/
theorem matches_listed {serial grouped unroutable : List Transaction}
    {serially groupwise : List Effect} (tx : Transaction) (keys : KeySet)
    (serialCount : serially.length = serial.length)
    (groupedCount : groupwise.length = grouped.length)
    (serialRoutes : ∀ tx ∈ serial, Route.of tx ≠ .unroutable)
    (groupedRoutes : ∀ tx ∈ grouped, Route.of tx ≠ .unroutable)
    (unroutableRoutes : ∀ tx ∈ unroutable, Route.of tx = .unroutable) :
    List.Forall₂ (Effect.Matches tx)
      (occurrences tx (serial ++ (grouped ++ unroutable))
        (serially ++ (groupwise.map (Effect.strip · keys) ++
          unroutable.map fun tx => Effect.failed tx.id Effect.invalidContract)))
      (occurrences tx (serial ++ (grouped ++ unroutable))
        (serially ++ (groupwise ++
          unroutable.map fun tx =>
            Effect.failed tx.id (CallError.unknownContract tx.target).message))) := by
  have strippedCount : (groupwise.map (Effect.strip · keys)).length = grouped.length := by
    rw [List.length_map, groupedCount]
  rw [occurrences_append serialCount, occurrences_append serialCount,
    occurrences_append strippedCount, occurrences_append groupedCount, occurrences_map_effects,
    occurrences_map, occurrences_map]
  refine List.rel_append ?_ (List.rel_append ?_ ?_)
  · refine List.forall₂_same.mpr fun effect hm => ?_
    exact Effect.matches_refl (serialRoutes tx (mem_of_mem_occurrences hm)) effect
  · rw [List.forall₂_map_left_iff]
    refine List.forall₂_same.mpr fun effect hm => ?_
    exact Effect.matches_strip (groupedRoutes tx (mem_of_mem_occurrences hm)) effect keys
  · rw [List.forall₂_map_left_iff, List.forall₂_map_right_iff]
    refine List.forall₂_same.mpr fun other hm => ?_
    obtain ⟨hu, same⟩ := List.mem_filter.mp hm
    obtain rfl := of_decide_eq_true same
    exact Effect.matches_failed (unroutableRoutes other hu)

theorem map_id_listed {partition : Partition} {serially groupwise : List Effect} (keys : KeySet)
    (serial : serially.map Effect.id = partition.serial.map Transaction.id)
    (grouped : groupwise.map Effect.id = partition.groups.flatten.map Transaction.id) :
    (serially ++ (groupwise.map (Effect.strip · keys) ++ partition.unroutable.map fun tx =>
      Effect.failed tx.id Effect.invalidContract)).map Effect.id =
        partition.toList.map Transaction.id := by
  have stripped : (groupwise.map (Effect.strip · keys)).map Effect.id =
      groupwise.map Effect.id := by
    rw [List.map_map]
    rfl
  have failed : (partition.unroutable.map fun tx =>
      Effect.failed tx.id Effect.invalidContract).map Effect.id =
        partition.unroutable.map Transaction.id := by
    rw [List.map_map]
    rfl
  rw [List.map_append, List.map_append, serial, stripped, grouped, failed, Partition.toList,
    List.map_append, List.map_append]

namespace Engine

/-- A block grouped by resources has a result, in which no group is rejected and every group did
what it does when all groups run one after the other behind the serial transactions. -/
theorem execute_byResource (threads : Nat) (transactions : List Transaction) (header : Header)
    {base : StateView} (calm : ∀ key, base.trips key = false) (prior : Option Overlay)
    {events : List Event} (quiet : .signal ∉ events) :
    let partition := Grouper.byResource (.ofHeader header) transactions
    let below := (prior.getD .empty).onto base.get?
    let serially := Vm.effects below partition.serial
    let groupwise := Vm.effects ((Overlay.ofEffects serially).onto below) partition.groups.flatten
    ∃ result keys,
      (⟨threads, .byResource, .contracts⟩ : Engine).execute transactions header base prior .quiet
        events = .ok result ∧
      result.effects = serially ++ (groupwise.map (Effect.strip · keys) ++
        partition.unroutable.map fun tx => Effect.failed tx.id Effect.invalidContract) ∧
      result.conflicting = 0 ∧ result.conflictingGroups = 0 ∧
      result.overlay prior = Overlay.merge prior (serially ++ groupwise) := by
  intro partition below serially groupwise
  have valid := Grouper.byResource_fault (.ofHeader header) transactions
  obtain ⟨result, ran⟩ := @exists_result_contracts ⟨threads, .byResource, .contracts⟩ transactions
    header base prior events rfl calm quiet valid
  obtain ⟨serial, outcomes, concluded⟩ := execute_ok ran
  obtain ⟨hs, ho⟩ := concluded.contracts rfl calm quiet
  obtain ⟨listed, _, _, conflicting, conflictingGroups⟩ := conclude_ok concluded.drawn
  have pending := conclude_overlay concluded.drawn prior
  have onSerial : (Overlay.merge prior serial).onto base.get? =
      (Overlay.ofEffects serially).onto below := by
    rw [Overlay.onto_onto, hs]
    rfl
  rw [onSerial] at ho
  obtain ⟨all, none⟩ := acceptedOutcomes_of_apart (speculated_apart
    ((Overlay.ofEffects serially).onto below) (Grouper.byResource_pairwise (.ofHeader header)
      transactions))
  have kept : (acceptedOutcomes (outcomes.map Prod.fst)).flatMap GroupOutcome.effects =
      groupwise := by
    have accepted := effects_accepted ((Overlay.ofEffects serially).onto below) partition
    have placed := (answering_speculated ((Overlay.ofEffects serially).onto below)
      partition.groups).placed
    simp only [partition] at accepted placed
    rw [all, placed, Partition.members_range] at accepted
    rw [ho]
    exact (congrArg (List.flatMap GroupOutcome.effects) all).trans accepted.symm
  have rejected : rejectedOutcomes (outcomes.map Prod.fst) = [] := by
    rw [ho]
    exact none
  refine ⟨result, readOnlyKeys (outcomes.map Prod.fst), ran, ?_, ?_, ?_, ?_⟩
  · rw [listed, rejectedEffects_resolve, rejected, acceptedEffects_resolve, kept, hs]
    simp only [List.flatMap_nil, List.map_nil, List.append_nil]
    rfl
  · rw [conflicting, rejectedEffects_resolve, rejected]
    rfl
  · rw [conflictingGroups, resolve_eq, rejected]
    rfl
  · rw [pending, kept, hs]
    rfl

/-- Grouping by resources is exact: no group is rejected, and the block does what its transactions
do as one batch in the block's own order. -/
theorem execute_byResource_exact (threads : Nat) (transactions : List Transaction)
    (header : Header) (base : Snapshot) (prior : Option Overlay) (events : List Event)
    (quiet : .signal ∉ events) :
    let partition := Grouper.byResource (.ofHeader header) transactions
    ∃ result batched,
      (⟨threads, .byResource, .contracts⟩ : Engine).execute transactions header base.view prior
        .quiet events = .ok result ∧
      Vm.execute transactions base.view (prior.getD .empty) .quiet = (.ok batched, .quiet) ∧
      result.conflicting = 0 ∧ result.conflictingGroups = 0 ∧
      partition.toList.Perm transactions ∧
      result.effects.map Effect.id = partition.toList.map Transaction.id ∧
      (∀ tx, List.Forall₂ (Effect.Matches tx) (occurrences tx partition.toList result.effects)
        (occurrences tx transactions batched)) ∧
      ((∀ a ∈ transactions, ∀ b ∈ transactions, a.id = b.id → a = b) → ∀ tx ∈ transactions,
        List.Forall₂ (Effect.Matches tx)
          (result.effects.filter fun effect => effect.id = tx.id)
          (batched.filter fun effect => effect.id = tx.id)) ∧
      result.overlay prior = Overlay.merge prior batched := by
  intro partition
  have calm : ∀ key, base.view.trips key = false := fun _ => rfl
  obtain ⟨result, keys, ran, listed, conflicting, conflictingGroups, pending⟩ :=
    execute_byResource threads transactions header calm prior quiet
  have shuffled := Grouper.byResource_shuffle (.ofHeader header) transactions
  obtain ⟨same, left⟩ := Vm.effects_shuffle shuffled ((prior.getD .empty).onto base.view.get?)
  have ordered := Vm.effects_listed ((prior.getD .empty).onto base.view.get?)
    fun _ => @Grouper.route_unroutable (.ofHeader header) transactions _
  have matching : ∀ tx, List.Forall₂ (Effect.Matches tx)
      (occurrences tx partition.toList result.effects)
      (occurrences tx transactions
        (Vm.effects ((prior.getD .empty).onto base.view.get?) transactions)) := by
    intro tx
    rw [same tx, listed, ordered]
    refine matches_listed tx keys (Vm.length_effects _ _) (Vm.length_effects _ _) ?_ ?_
      fun _ => Grouper.route_unroutable
    · intro other hm unroutable
      rw [Grouper.route_serial hm] at unroutable
      cases unroutable
    · intro other hm unroutable
      obtain ⟨keys, grouped⟩ := Grouper.route_grouped hm
      rw [grouped] at unroutable
      cases unroutable
  have named : result.effects.map Effect.id = partition.toList.map Transaction.id := by
    rw [listed]
    exact map_id_listed keys (Vm.effects_map_id _ _) (Vm.effects_map_id _ _)
  refine ⟨result, _, ran, Vm.execute_quiet calm transactions _, conflicting, conflictingGroups,
    shuffled.perm.symm, named, matching, ?_, ?_⟩
  · intro distinct tx ht
    rw [filter_id (Vm.effects_map_id _ _) fun other hm => distinct other hm tx ht,
      filter_id named fun other hm => distinct other (shuffled.perm.mem_iff.mpr hm) tx ht]
    exact matching tx
  · rw [pending, Overlay.merge, Overlay.merge, left, ordered]
    simp only [Overlay.ofEffects_append, Overlay.ofEffects_failed, Overlay.extend_empty]

theorem sample_byResource_exact :
    ∃ result batched,
      (⟨2, .byResource, .contracts⟩ : Engine).execute Sample.block Sample.header
        Sample.genesis.view none .quiet [.step 1 0] = .ok result ∧
      Vm.execute Sample.block Sample.genesis.view .empty .quiet = (.ok batched, .quiet) ∧
      result.conflicting = 0 ∧
      List.Forall₂ (Effect.Matches Sample.payCarol)
        (result.effects.filter fun effect => effect.id = Sample.payCarol.id)
        (batched.filter fun effect => effect.id = Sample.payCarol.id) ∧
      result.overlay none = Overlay.merge none batched := by
  have quiet : Event.signal ∉ [Event.step 1 0] := by decide
  have distinct : ∀ a ∈ Sample.block, ∀ b ∈ Sample.block, a.id = b.id → a = b := by
    decide +kernel
  obtain ⟨result, batched, ran, batch, none, _, _, _, _, matching, pending⟩ :=
    execute_byResource_exact 2 Sample.block Sample.header Sample.genesis .none [.step 1 0] quiet
  exact ⟨result, batched, ran, batch, none, matching distinct _ (List.mem_cons_self ..), pending⟩

end Engine
end GroupedLedger
