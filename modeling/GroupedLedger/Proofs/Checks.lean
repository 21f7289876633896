import GroupedLedger.Partition
import GroupedLedger.Proofs.Effects
import GroupedLedger.Executor
import Mathlib.Data.List.Perm.Subperm

namespace GroupedLedger

namespace Partition

theorem getD_foldl_counts (ids : List Digest) (found : Std.ExtTreeMap Digest Nat) (id : Digest) :
    (ids.foldl (fun counts id => counts.insert id (counts.getD id 0 + 1)) found).getD id 0 =
      found.getD id 0 + ids.count id := by
  induction ids generalizing found with
  | nil => rfl
  | cons first ids ih =>
    rw [List.foldl_cons, ih, Std.ExtTreeMap.getD_insert, List.count_cons]
    by_cases he : first = id
    · subst he
      simp only [Std.compare_self, if_true, beq_self_eq_true]
      omega
    · simp [he]

theorem getD_counts (ids : List Digest) (id : Digest) : (counts ids).getD id 0 = ids.count id := by
  rw [counts, getD_foldl_counts, Std.ExtTreeMap.getD_empty, Nat.zero_add]

/-- An id whose count is used up is foreign; otherwise one is taken off its count. -/
theorem foreign?_cons (remaining : Std.ExtTreeMap Digest Nat) (first : Digest)
    (ids : List Digest) :
    foreign? remaining (first :: ids) =
      if remaining.getD first 0 = 0 then some first
      else foreign? (remaining.insert first (remaining.getD first 0 - 1)) ids := by
  rw [foreign?, Std.ExtTreeMap.getD_eq_getD_getElem?]
  rcases remaining[first]? with _ | _ | left <;> rfl

theorem getD_insert_pred {remaining : Std.ExtTreeMap Digest Nat} {first : Digest}
    (left : remaining.getD first 0 ≠ 0) (id : Digest) :
    remaining.getD id 0 = (remaining.insert first (remaining.getD first 0 - 1)).getD id 0 +
      if first == id then 1 else 0 := by
  rw [Std.ExtTreeMap.getD_insert]
  by_cases he : first = id
  · subst he
    simp only [Std.compare_self, if_true, beq_self_eq_true]
    omega
  · simp [he]

/-- Counting down runs out nowhere exactly if no id is wanted more often than it is there. -/
theorem foreign?_eq_none_iff {remaining : Std.ExtTreeMap Digest Nat} {ids : List Digest} :
    foreign? remaining ids = none ↔ ∀ id, ids.count id ≤ remaining.getD id 0 := by
  induction ids generalizing remaining with
  | nil => simp [foreign?]
  | cons first ids ih =>
    rw [foreign?_cons]
    split
    · rename_i used
      refine iff_of_false (by simp) fun fits => ?_
      have here := fits first
      rw [List.count_cons_self, used] at here
      omega
    · rename_i left
      rw [ih]
      apply forall_congr'
      intro id
      rw [List.count_cons, getD_insert_pred left id, Nat.add_le_add_iff_right]

/-- The foreign id is the first one that is wanted once more than it is there. -/
theorem foreign?_eq_some_iff {remaining : Std.ExtTreeMap Digest Nat} {ids : List Digest}
    {id : Digest} :
    foreign? remaining ids = some id ↔ ∃ before after, ids = before ++ id :: after ∧
      (∀ other, before.count other ≤ remaining.getD other 0) ∧
      before.count id = remaining.getD id 0 := by
  induction ids generalizing remaining with
  | nil => simp [foreign?]
  | cons first ids ih =>
    rw [foreign?_cons]
    split
    · rename_i used
      constructor
      · intro h
        cases h
        exact ⟨[], ids, rfl, fun _ => Nat.zero_le _, used.symm⟩
      · rintro ⟨before, after, same, fits, _⟩
        cases before with
        | nil => exact congrArg some (List.cons.inj same).1
        | cons head before =>
          cases (List.cons.inj same).1
          have here := fits first
          rw [List.count_cons_self, used] at here
          omega
    · rename_i left
      rw [ih]
      constructor
      · rintro ⟨before, after, rfl, fits, out⟩
        refine ⟨first :: before, after, rfl, fun other => ?_, ?_⟩
        · rw [List.count_cons, getD_insert_pred left other]
          exact Nat.add_le_add_right (fits other) _
        · rw [List.count_cons, getD_insert_pred left id, out]
      · rintro ⟨before, after, same, fits, out⟩
        -- The foreign id is not the first one, of which there is still some left.
        cases before with
        | nil =>
          cases same
          exact absurd out.symm left
        | cons head before =>
          cases same
          refine ⟨before, after, rfl, fun other => ?_, ?_⟩
          · have here := fits other
            rwa [List.count_cons, getD_insert_pred left other, Nat.add_le_add_iff_right] at here
          · rwa [List.count_cons, getD_insert_pred left id, Nat.add_right_cancel_iff] at out

theorem fault?_eq_none_iff {partition : Partition} {block : List Digest} :
    partition.fault? block = none ↔
      (∀ group ∈ partition.groups, group ≠ []) ∧
        (partition.toList.map Transaction.id).Perm block := by
  unfold fault?
  split
  · rename_i group found
    constructor
    · intro h
      cases h
    · rintro ⟨filled, _⟩
      obtain ⟨hl, empty, _⟩ := List.findIdx?_eq_some_iff_getElem.mp found
      exact absurd (List.isEmpty_iff.mp empty) (filled _ (List.getElem_mem hl))
  · rename_i filled
    rw [List.findIdx?_eq_none_iff] at filled
    have hg : ∀ group ∈ partition.groups, group ≠ [] := by
      intro group hm he
      have := filled group hm
      simp [he] at this
    split
    · rename_i size
      constructor
      · intro h
        cases h
      · rintro ⟨_, same⟩
        have hl := same.length_eq
        rw [List.length_map] at hl
        exact absurd hl size
    · rename_i size
      rw [Decidable.not_not] at size
      simp only [Option.map_eq_none_iff, foreign?_eq_none_iff, getD_counts]
      constructor
      · intro h
        refine ⟨hg, List.Subperm.perm_of_length_le (List.subperm_ext_iff.mpr fun id _ => h id) ?_⟩
        rw [List.length_map, ← size]
        exact Nat.le_refl _
      · rintro ⟨_, same⟩ id
        exact Nat.le_of_eq (same.count_eq id)

end Partition

theorem misplaced_eq_none_iff {transactions : List Transaction} {effects : List Effect}
    (count : effects.length = transactions.length) :
    (transactions.zip effects).findIdx? (fun (tx, effect) => tx.id != effect.id) = none ↔
      effects.map Effect.id = transactions.map Transaction.id := by
  rw [List.findIdx?_eq_none_iff]
  induction transactions generalizing effects with
  | nil =>
    rw [List.length_eq_zero_iff.mp count]
    simp
  | cons tx rest ih =>
    cases effects with
    | nil => simp at count
    | cons effect effects =>
      have ht := @ih effects (by simpa using count)
      rw [List.zip_cons_cons, List.forall_mem_cons, ht, List.map_cons, List.map_cons,
        List.cons.injEq, bne_eq_false_iff_eq, eq_comm]

theorem effectsFault?_eq_none_iff {transactions : List Transaction} {effects : List Effect} :
    effectsFault? transactions effects = none ↔
      effects.map Effect.id = transactions.map Transaction.id ∧
        ∀ effect ∈ effects, effect.isConsistent = true := by
  unfold effectsFault?
  split
  · rename_i count
    constructor
    · intro h
      cases h
    · rintro ⟨same, _⟩
      exact absurd (by simpa using congrArg List.length same) count
  · rename_i count
    rw [Decidable.not_not] at count
    have hz := misplaced_eq_none_iff count
    split
    · rename_i place found
      constructor
      · intro h
        cases h
      · rintro ⟨same, _⟩
        rw [hz.mpr same] at found
        cases found
    · rename_i ordered
      rw [Option.map_eq_none_iff, List.find?_eq_none, hz.mp ordered]
      simp

end GroupedLedger
