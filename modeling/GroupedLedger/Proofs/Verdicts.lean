import GroupedLedger.Proofs.Resolutions

namespace GroupedLedger

namespace Effect

/-- Drops the notes about all touched keys but those that one of the groups changed. -/
def keepChanged (outcomes : List GroupOutcome) (effect : Effect) : Effect :=
  { effect with accesses := effect.accesses.filter fun key _ =>
      outcomes.any fun outcome => outcome.changed.contains key }

theorem getElem?_accesses_keepChanged (outcomes : List GroupOutcome) (effect : Effect) (key : Key) :
    (effect.keepChanged outcomes).accesses[key]? = effect.accesses[key]?.filter fun _ =>
      outcomes.any fun outcome => outcome.changed.contains key :=
  Std.ExtTreeMap.getElem?_filter'

theorem getElem?_accesses_strip (effect : Effect) (keys : KeySet) (key : Key) :
    (effect.strip keys).accesses[key]? = effect.accesses[key]?.filter fun _ => !keys.contains key :=
  Std.ExtTreeMap.getElem?_filter'

end Effect

variable {outcomes : List GroupOutcome} {outcome : GroupOutcome}

/-- A key that a group touched is not read-only exactly if some group changed it. -/
theorem not_mem_readOnlyKeys {key : Key} (mem : outcome ∈ outcomes)
    (touched : key ∈ outcome.accessed) :
    key ∉ readOnlyKeys outcomes ↔ ∃ other ∈ outcomes, key ∈ other.changed := by
  rw [mem_readOnlyKeys]
  constructor
  · intro relevant
    refine Decidable.byContradiction fun unchanged => relevant ⟨⟨outcome, mem, touched⟩, ?_⟩
    exact fun other ho changed => unchanged ⟨other, ho, changed⟩
  · rintro ⟨other, ho, changed⟩ ⟨_, unchanged⟩
    exact unchanged other ho changed

/-- Of an effect's notes about touched keys, those that are left are about keys that some group
changed. -/
theorem Effect.strip_readOnlyKeys (mem : outcome ∈ outcomes) {effect : Effect}
    (noted : effect ∈ outcome.effects) :
    effect.strip (readOnlyKeys outcomes) = effect.keepChanged outcomes := by
  have same : (effect.strip (readOnlyKeys outcomes)).accesses =
      (effect.keepChanged outcomes).accesses := by
    apply Std.ExtTreeMap.ext_getElem?
    intro key
    rw [getElem?_accesses_strip, getElem?_accesses_keepChanged]
    cases found : effect.accesses[key]? with
    | none => rfl
    | some access =>
      have touched : key ∈ outcome.accessed := GroupOutcome.mem_accessed.mpr
        ⟨effect, noted, Std.ExtTreeMap.mem_iff_isSome_getElem?.mpr (by rw [found]; rfl)⟩
      have relevant := not_mem_readOnlyKeys mem touched
      have agree : (!(readOnlyKeys outcomes).contains key) =
          outcomes.any fun other => other.changed.contains key := by
        rw [Bool.eq_iff_iff, List.any_eq_true, Bool.not_eq_true', ← Bool.not_eq_true]
        simpa only [Std.ExtTreeSet.contains_iff_mem] using relevant
      rw [agree]
  exact congrArg (fun accesses => { effect with accesses }) same

/-- The pass over a block's groups once it has seen the first few of them. -/
def passAfter (outcomes : List GroupOutcome) (count : Nat) : Resolver :=
  (outcomes.take count).foldl Resolver.take (.start (readOnlyKeys outcomes))

def accepts (outcomes : List GroupOutcome) (place : Nat) : Bool :=
  outcomes[place]?.any (passAfter outcomes place).admits

theorem passAfter_succ {place : Nat} (here : outcomes[place]? = some outcome) :
    passAfter outcomes (place + 1) = (passAfter outcomes place).take outcome := by
  rw [passAfter, List.take_add_one, here, List.foldl_append]
  rfl

theorem zipIdx_take_succ {place : Nat} (here : outcomes[place]? = some outcome) :
    (outcomes.take (place + 1)).zipIdx = (outcomes.take place).zipIdx ++ [(outcome, place)] := by
  obtain ⟨inside, _⟩ := List.getElem?_eq_some_iff.mp here
  have length : (outcomes.take place).length = place := List.length_take_of_le (Nat.le_of_lt inside)
  rw [List.take_add_one, here, List.zipIdx_append, length, Nat.zero_add]
  rfl

/-- The pass has accepted and rejected what its verdicts so far say. -/
theorem split_passAfter {count : Nat} (within : count ≤ outcomes.length) :
    (passAfter outcomes count).accepted = ((outcomes.take count).zipIdx.filter fun entry =>
        accepts outcomes entry.2).map Prod.fst ∧
      (passAfter outcomes count).rejected = ((outcomes.take count).zipIdx.filter fun entry =>
        !accepts outcomes entry.2).map Prod.fst := by
  induction count with
  | zero => exact ⟨rfl, rfl⟩
  | succ place ih =>
    obtain ⟨accepted, rejected⟩ := ih (by omega)
    have here : outcomes[place]? = some outcomes[place] := List.getElem?_eq_getElem (by omega)
    have verdict : accepts outcomes place = (passAfter outcomes place).admits outcomes[place] := by
      rw [accepts, here]
      rfl
    rw [passAfter_succ here, zipIdx_take_succ here]
    simp only [List.filter_append, List.map_append, ← accepted, ← rejected, Resolver.take, ← verdict]
    cases accepted : accepts outcomes place <;> simp [accepted]

theorem mem_accepted_passAfter {count : Nat} (within : count ≤ outcomes.length) :
    outcome ∈ (passAfter outcomes count).accepted ↔
      ∃ place < count, accepts outcomes place = true ∧ outcomes[place]? = some outcome := by
  rw [(split_passAfter within).1, List.mem_map]
  constructor
  · rintro ⟨⟨_, place⟩, hm, rfl⟩
    obtain ⟨listed, accepted⟩ := List.mem_filter.mp hm
    rw [List.mem_zipIdx_iff_getElem?, List.getElem?_take] at listed
    split at listed
    · rename_i before
      exact ⟨place, before, accepted, listed⟩
    · cases listed
  · rintro ⟨place, before, accepted, here⟩
    refine ⟨(outcome, place), List.mem_filter.mpr ⟨?_, accepted⟩, rfl⟩
    rw [List.mem_zipIdx_iff_getElem?, List.getElem?_take_of_lt before]
    exact here

/-- A group is rejected for a key that it shares with a group accepted before it and that is not
read-only. -/
theorem accepts_eq_false_iff {later : Nat} (here : outcomes[later]? = some outcome) :
    accepts outcomes later = false ↔ ∃ earlier < later, accepts outcomes earlier = true ∧
      ∃ other, outcomes[earlier]? = some other ∧ ∃ key, key ∈ other.accessed ∧
        key ∈ outcome.accessed ∧ ∃ changer ∈ outcomes, key ∈ changer.changed := by
  obtain ⟨inside, _⟩ := List.getElem?_eq_some_iff.mp here
  have mem : outcome ∈ outcomes := List.mem_of_getElem? here
  have verdict : accepts outcomes later = (passAfter outcomes later).admits outcome := by
    rw [accepts, here]
    rfl
  have sound : Resolver.Sound (outcomes.take later) (passAfter outcomes later) :=
    (Resolver.sound_start (readOnlyKeys outcomes)).foldl (outcomes.take later)
  have readOnly : (passAfter outcomes later).readOnly = readOnlyKeys outcomes :=
    Resolver.readOnly_foldl _ _
  rw [verdict, ← Bool.not_eq_true, Resolver.admits_iff, readOnly]
  constructor
  · intro refused
    simp only [Classical.not_forall, Decidable.not_not] at refused
    obtain ⟨key, touched, relevant, claimed⟩ := refused
    obtain ⟨other, accepted, shared, _⟩ := (sound.claimed key).mp claimed
    obtain ⟨earlier, before, verdict, there⟩ := (mem_accepted_passAfter (Nat.le_of_lt inside)).mp accepted
    exact ⟨earlier, before, verdict, other, there, key, shared, touched,
      (not_mem_readOnlyKeys mem touched).mp relevant⟩
  · rintro ⟨earlier, before, verdict, other, there, key, shared, touched, changed⟩ admitted
    have relevant := (not_mem_readOnlyKeys mem touched).mpr changed
    refine admitted key touched relevant ((sound.claimed key).mpr ⟨other, ?_, shared, ?_⟩)
    · exact (mem_accepted_passAfter (Nat.le_of_lt inside)).mpr ⟨earlier, before, verdict, there⟩
    · rwa [readOnly]

theorem split_resolved (outcomes : List GroupOutcome) :
    acceptedOutcomes outcomes =
        (outcomes.zipIdx.filter fun entry => accepts outcomes entry.2).map Prod.fst ∧
      rejectedOutcomes outcomes =
        (outcomes.zipIdx.filter fun entry => !accepts outcomes entry.2).map Prod.fst := by
  have split := split_passAfter (Nat.le_refl outcomes.length)
  rw [passAfter, List.take_length] at split
  exact split

theorem acceptedEffects_keepChanged (outcomes : List GroupOutcome) :
    (resolve outcomes).acceptedEffects =
      ((acceptedOutcomes outcomes).flatMap GroupOutcome.effects).map
        (Effect.keepChanged outcomes) := by
  rw [acceptedEffects_resolve]
  apply List.map_congr_left
  intro effect hm
  obtain ⟨outcome, ho, noted⟩ := List.mem_flatMap.mp hm
  exact Effect.strip_readOnlyKeys ((acceptedOutcomes_sublist outcomes).subset ho) noted

theorem rejectedEffects_keepChanged (outcomes : List GroupOutcome) :
    (resolve outcomes).rejectedEffects =
      ((rejectedOutcomes outcomes).flatMap GroupOutcome.effects).map
        (Effect.keepChanged outcomes) := by
  rw [rejectedEffects_resolve]
  apply List.map_congr_left
  intro effect hm
  obtain ⟨outcome, ho, noted⟩ := List.mem_flatMap.mp hm
  exact Effect.strip_readOnlyKeys ((rejectedOutcomes_sublist outcomes).subset ho) noted

/-- What becomes of any groups, consistent or not. Each is accepted or rejected, and rejected
exactly if it touched a key that a group accepted before it touched and that some group changed;
both kinds stay in order, and their effects lose the notes about keys that no group changed, and
nothing else. -/
theorem resolve_by_verdict (outcomes : List GroupOutcome) :
    let resolution := resolve outcomes
    let accepted := outcomes.zipIdx.filter fun entry => accepts outcomes entry.2
    let rejected := outcomes.zipIdx.filter fun entry => !accepts outcomes entry.2
    (∀ later : Fin outcomes.length, accepts outcomes later = false ↔
      ∃ earlier < later, accepts outcomes earlier = true ∧
        ∃ key, key ∈ outcomes[earlier].accessed ∧ key ∈ outcomes[later].accessed ∧
          ∃ changer ∈ outcomes, key ∈ changer.changed) ∧
    resolution.accepted.map GroupOutcome.group = accepted.map (fun entry => entry.1.group) ∧
    resolution.rejected.map GroupOutcome.group = rejected.map (fun entry => entry.1.group) ∧
    (accepted ++ rejected).Perm outcomes.zipIdx ∧
    resolution.acceptedEffects = accepted.flatMap (fun entry =>
      entry.1.effects.map (Effect.keepChanged outcomes)) ∧
    resolution.rejectedEffects = rejected.flatMap (fun entry =>
      entry.1.effects.map (Effect.keepChanged outcomes)) ∧
    ∀ key, key ∈ resolution.readOnly ↔
      (∃ outcome ∈ outcomes, key ∈ outcome.accessed) ∧
        ∀ outcome ∈ outcomes, key ∉ outcome.changed := by
  intro resolution accepted rejected
  obtain ⟨acceptedSplit, rejectedSplit⟩ := split_resolved outcomes
  refine ⟨?_, ?_, ?_, List.filter_append_perm _ _, ?_, ?_, ?_⟩
  · intro later
    rw [accepts_eq_false_iff (List.getElem?_eq_getElem later.isLt)]
    constructor
    · rintro ⟨earlier, before, verdict, other, there, conflict⟩
      obtain ⟨inside, rfl⟩ := List.getElem?_eq_some_iff.mp there
      exact ⟨⟨earlier, inside⟩, before, verdict, conflict⟩
    · rintro ⟨earlier, before, verdict, conflict⟩
      exact ⟨earlier, before, verdict, _, List.getElem?_eq_getElem earlier.isLt, conflict⟩
  · rw [map_group_accepted, acceptedSplit, List.map_map]
    rfl
  · rw [map_group_rejected, rejectedSplit, List.map_map]
    rfl
  · rw [acceptedEffects_keepChanged, acceptedSplit, List.flatMap_map, List.map_flatMap]
  · rw [rejectedEffects_keepChanged, rejectedSplit, List.flatMap_map, List.map_flatMap]
  · intro key
    simp only [resolution, resolve_eq]
    exact mem_readOnlyKeys

/-- The second group is rejected, so the third may touch what the second changed; but that key is
not read-only, so the fourth may not touch it after the third. -/
example :
    let x := Key.ofText "x"
    let y := Key.ofText "y"
    let fresh := Effect.fresh (.filled 32 0)
    let groups := [fresh.write x [], (fresh.read x).write y [], fresh.read y, fresh.read y]
    let outcomes := groups.zipIdx.map fun entry => (⟨entry.2, [entry.1]⟩ : GroupOutcome)
    (List.range 4).map (accepts outcomes) = [true, false, true, false] := by
  decide +kernel

end GroupedLedger
