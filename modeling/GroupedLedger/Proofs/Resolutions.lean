import GroupedLedger.Proofs.Effects
import GroupedLedger.Resolution

namespace GroupedLedger

namespace GroupOutcome

theorem mem_accessed {outcome : GroupOutcome} {key : Key} :
    key ∈ outcome.accessed ↔ ∃ effect ∈ outcome.effects, key ∈ effect.accesses := by
  simp only [accessed, Std.ExtTreeSet.mem_ofList, List.contains_iff_mem, List.mem_flatMap,
    Effect.mem_accessedKeys]

theorem mem_changed {outcome : GroupOutcome} {key : Key} :
    key ∈ outcome.changed ↔ ∃ effect ∈ outcome.effects, key ∈ effect.changedKeys := by
  simp only [changed, Std.ExtTreeSet.mem_ofList, List.contains_iff_mem, List.mem_flatMap]

def strip (keys : KeySet) (outcome : GroupOutcome) : GroupOutcome :=
  { outcome with effects := outcome.effects.map (Effect.strip · keys) }

end GroupOutcome

/-- A key is read-only for a block if some group touched it and none changed it. -/
theorem mem_readOnlyKeys {outcomes : List GroupOutcome} {key : Key} :
    key ∈ readOnlyKeys outcomes ↔
      (∃ outcome ∈ outcomes, key ∈ outcome.accessed) ∧
        ∀ outcome ∈ outcomes, key ∉ outcome.changed := by
  simp only [readOnlyKeys, Std.ExtTreeSet.mem_diff_iff, Std.ExtTreeSet.mem_ofList,
    List.contains_iff_mem, List.mem_flatMap, Std.ExtTreeSet.mem_toList, GroupOutcome.onlyRead,
    not_exists, not_and]
  constructor
  · rintro ⟨⟨outcome, hm, read, _⟩, unchanged⟩
    exact ⟨⟨outcome, hm, read⟩, unchanged⟩
  · rintro ⟨⟨outcome, hm, read⟩, unchanged⟩
    exact ⟨⟨outcome, hm, read, unchanged outcome hm⟩, unchanged⟩

namespace Resolver

theorem mem_relevant {resolver : Resolver} {outcome : GroupOutcome} {key : Key} :
    key ∈ resolver.relevant outcome ↔ key ∈ outcome.accessed ∧ key ∉ resolver.readOnly :=
  Std.ExtTreeSet.mem_diff_iff

theorem admits_iff {resolver : Resolver} {outcome : GroupOutcome} :
    resolver.admits outcome = true ↔
      ∀ key ∈ outcome.accessed, key ∉ resolver.readOnly → key ∉ resolver.claimed := by
  simp only [admits, Std.ExtTreeSet.isEmpty_inter_iff, mem_relevant, and_imp]

/-- What the pass has established once it has seen some groups. -/
structure Sound (seen : List GroupOutcome) (resolver : Resolver) : Prop where
  accepted : resolver.accepted.Sublist seen
  rejected : resolver.rejected.Sublist seen
  split : (resolver.accepted ++ resolver.rejected).Perm seen
  claimed : ∀ key, key ∈ resolver.claimed ↔
    ∃ outcome ∈ resolver.accepted, key ∈ outcome.accessed ∧ key ∉ resolver.readOnly
  apart : resolver.accepted.Pairwise fun a b =>
    ∀ key ∈ a.accessed, key ∈ b.accessed → key ∈ resolver.readOnly

theorem sound_start (readOnly : KeySet) : Sound [] (start readOnly) := by
  refine ⟨.slnil, .slnil, .nil, fun key => ?_, .nil⟩
  simp [start]

theorem Sound.take {seen : List GroupOutcome} {resolver : Resolver} (h : Sound seen resolver)
    (outcome : GroupOutcome) : Sound (seen ++ [outcome]) (resolver.take outcome) := by
  unfold Resolver.take
  split
  · rename_i admitted
    rw [admits_iff] at admitted
    refine ⟨h.accepted.append (.refl _), h.rejected.trans (List.sublist_append_left _ _), ?_, ?_,
      ?_⟩
    · have hp := h.split.append_right [outcome]
      rw [List.append_assoc] at hp ⊢
      exact (List.perm_append_comm.append_left _).trans hp
    · intro key
      simp only [Std.ExtTreeSet.mem_union_iff, h.claimed, mem_relevant, List.mem_append,
        List.mem_singleton, or_and_right, exists_or, exists_eq_left]
    · rw [List.pairwise_append]
      refine ⟨h.apart, List.pairwise_singleton _ _, ?_⟩
      intro earlier hm later hl key he hk
      rw [List.mem_singleton.mp hl] at hk
      by_cases hr : key ∈ resolver.readOnly
      · exact hr
      · exact absurd ((h.claimed key).mpr ⟨earlier, hm, he, hr⟩) (admitted key hk hr)
  · refine ⟨h.accepted.trans (List.sublist_append_left _ _), h.rejected.append (.refl _), ?_,
      h.claimed, h.apart⟩
    have hp := h.split.append_right [outcome]
    rwa [List.append_assoc] at hp

theorem readOnly_take (resolver : Resolver) (outcome : GroupOutcome) :
    (resolver.take outcome).readOnly = resolver.readOnly := by
  unfold Resolver.take
  split <;> rfl

theorem Sound.foldl {seen : List GroupOutcome} {resolver : Resolver} (h : Sound seen resolver)
    (outcomes : List GroupOutcome) :
    Sound (seen ++ outcomes) (outcomes.foldl Resolver.take resolver) := by
  induction outcomes generalizing seen resolver with
  | nil => simpa using h
  | cons outcome outcomes ih => simpa using ih (h.take outcome)

/-- Groups that share only keys the pass disregards are all accepted. -/
theorem Sound.foldl_of_apart {seen : List GroupOutcome} {resolver : Resolver}
    (h : Sound seen resolver) (all : resolver.accepted = seen) (none : resolver.rejected = [])
    (outcomes : List GroupOutcome)
    (apart : (seen ++ outcomes).Pairwise fun a b =>
      ∀ key ∈ a.accessed, key ∈ b.accessed → key ∈ resolver.readOnly) :
    (outcomes.foldl Resolver.take resolver).accepted = seen ++ outcomes ∧
      (outcomes.foldl Resolver.take resolver).rejected = [] := by
  induction outcomes generalizing seen resolver with
  | nil => exact ⟨by rw [List.append_nil]; exact all, none⟩
  | cons outcome outcomes ih =>
    have admitted : resolver.admits outcome = true := by
      rw [admits_iff]
      intro key touched relevant claimed
      obtain ⟨earlier, he, hk, _⟩ := (h.claimed key).mp claimed
      rw [all] at he
      have disregarded := (List.pairwise_append.mp apart).2.2 earlier he outcome (by simp)
      exact relevant (disregarded key hk touched)
    have taken : resolver.take outcome = { resolver with
        claimed := resolver.claimed ∪ resolver.relevant outcome
        accepted := resolver.accepted ++ [outcome] } := if_pos admitted
    have later := @ih (seen ++ [outcome]) (resolver.take outcome) (h.take outcome)
      (by rw [taken, all]) (by rw [taken, none])
      (by rwa [readOnly_take, List.append_assoc])
    rwa [List.append_assoc] at later

theorem readOnly_foldl (resolver : Resolver) (outcomes : List GroupOutcome) :
    (outcomes.foldl Resolver.take resolver).readOnly = resolver.readOnly := by
  induction outcomes generalizing resolver with
  | nil => rfl
  | cons outcome outcomes ih => rw [List.foldl_cons, ih, readOnly_take]

end Resolver

def acceptedOutcomes (outcomes : List GroupOutcome) : List GroupOutcome :=
  (outcomes.foldl Resolver.take (Resolver.start (readOnlyKeys outcomes))).accepted

def rejectedOutcomes (outcomes : List GroupOutcome) : List GroupOutcome :=
  (outcomes.foldl Resolver.take (Resolver.start (readOnlyKeys outcomes))).rejected

theorem resolve_eq (outcomes : List GroupOutcome) :
    resolve outcomes =
      ⟨(acceptedOutcomes outcomes).map (GroupOutcome.strip (readOnlyKeys outcomes)),
        (rejectedOutcomes outcomes).map (GroupOutcome.strip (readOnlyKeys outcomes)),
        readOnlyKeys outcomes⟩ := by
  have hr := Resolver.readOnly_foldl (Resolver.start (readOnlyKeys outcomes)) outcomes
  simp only [resolve, Resolver.finish, hr]
  rfl

theorem acceptedEffects_resolve (outcomes : List GroupOutcome) :
    (resolve outcomes).acceptedEffects =
      ((acceptedOutcomes outcomes).flatMap GroupOutcome.effects).map
        (Effect.strip · (readOnlyKeys outcomes)) := by
  rw [resolve_eq, Resolution.acceptedEffects, List.flatMap_map, List.map_flatMap]
  rfl

theorem rejectedEffects_resolve (outcomes : List GroupOutcome) :
    (resolve outcomes).rejectedEffects =
      ((rejectedOutcomes outcomes).flatMap GroupOutcome.effects).map
        (Effect.strip · (readOnlyKeys outcomes)) := by
  rw [resolve_eq, Resolution.rejectedEffects, List.flatMap_map, List.map_flatMap]
  rfl

theorem map_group_accepted (outcomes : List GroupOutcome) :
    (resolve outcomes).accepted.map GroupOutcome.group =
      (acceptedOutcomes outcomes).map GroupOutcome.group := by
  rw [resolve_eq, List.map_map]
  rfl

theorem map_group_rejected (outcomes : List GroupOutcome) :
    (resolve outcomes).rejected.map GroupOutcome.group =
      (rejectedOutcomes outcomes).map GroupOutcome.group := by
  rw [resolve_eq, List.map_map]
  rfl

theorem resolver_sound (outcomes : List GroupOutcome) :
    Resolver.Sound outcomes
      (outcomes.foldl Resolver.take (Resolver.start (readOnlyKeys outcomes))) := by
  simpa using (Resolver.sound_start (readOnlyKeys outcomes)).foldl outcomes

theorem acceptedOutcomes_sublist (outcomes : List GroupOutcome) :
    (acceptedOutcomes outcomes).Sublist outcomes :=
  (resolver_sound outcomes).accepted

theorem rejectedOutcomes_sublist (outcomes : List GroupOutcome) :
    (rejectedOutcomes outcomes).Sublist outcomes :=
  (resolver_sound outcomes).rejected

theorem accepted_append_rejected (outcomes : List GroupOutcome) :
    (acceptedOutcomes outcomes ++ rejectedOutcomes outcomes).Perm outcomes :=
  (resolver_sound outcomes).split

/-- Accepted groups share only keys that no group changed. -/
theorem acceptedOutcomes_apart (outcomes : List GroupOutcome) :
    (acceptedOutcomes outcomes).Pairwise fun a b =>
      ∀ key ∈ a.accessed, key ∈ b.accessed → key ∈ readOnlyKeys outcomes := by
  have ha := (resolver_sound outcomes).apart
  rwa [Resolver.readOnly_foldl] at ha

/-- And the other way round. -/
theorem acceptedOutcomes_of_apart {outcomes : List GroupOutcome}
    (apart : outcomes.Pairwise fun a b =>
      ∀ key ∈ a.accessed, key ∈ b.accessed → key ∈ readOnlyKeys outcomes) :
    acceptedOutcomes outcomes = outcomes ∧ rejectedOutcomes outcomes = [] :=
  (Resolver.sound_start (readOnlyKeys outcomes)).foldl_of_apart rfl rfl outcomes apart

end GroupedLedger
