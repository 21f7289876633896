import GroupedLedger.Proofs.Checks
import GroupedLedger.Proofs.Shuffles
import GroupedLedger.Proofs.Slots
import GroupedLedger.Proofs.Ties

namespace GroupedLedger

namespace Call

theorem ofTokenMethod_ne_unknownContract (method : String) (params : Bytes) (address : Address) :
    ofTokenMethod method params ≠ .error (.unknownContract address) := by
  unfold ofTokenMethod
  split
  · split <;> simp
  · split
    · split <;> simp
    · split
      · split <;> simp
      · simp

theorem eq_target_of_decode {tx : Transaction} {address : Address}
    (undeployed : decode tx = .error (.unknownContract address)) : address = tx.target := by
  unfold decode at undeployed
  split at undeployed
  · split at undeployed <;> cases undeployed
  · split at undeployed
    · exact absurd undeployed (ofTokenMethod_ne_unknownContract _ _ _)
    · cases undeployed
      rfl

end Call

namespace Route

variable {tx : Transaction} {key : Key}

theorem decode_of_unroutable (route : Route.of tx = .unroutable) :
    Call.decode tx = .error (.unknownContract tx.target) := by
  unfold Route.of at route
  cases hd : Call.decode tx with
  | ok call =>
    rw [hd] at route
    simp only at route
    split at route <;> cases route
  | error error =>
    cases error with
    | unknownContract address => rw [Call.eq_target_of_decode hd]
    | unknownMethod method =>
      rw [hd] at route
      cases route
    | malformedParams method length =>
      rw [hd] at route
      cases route

theorem resources_unroutable (route : Route.of tx = .unroutable) : tx.resources = [] := by
  rw [Transaction.resources, decode_of_unroutable route]

theorem eq_round_of_serial (route : Route.of tx = .serial) (own : key ∈ tx.resources) :
    key = Key.round := by
  unfold Route.of at route
  unfold Transaction.resources at own
  cases hd : Call.decode tx with
  | error error =>
    rw [hd] at own
    cases own
  | ok call =>
    rw [hd] at route own
    cases call with
    | nextRound => simpa [Call.resources] using own
    | _ => cases route

theorem balance_of_grouped {keys : List Key} (route : Route.of tx = .grouped keys)
    (own : key ∈ tx.resources) : key ∈ keys ∧ ∃ owner, key = Key.balance owner := by
  unfold Route.of at route
  unfold Transaction.resources at own
  cases hd : Call.decode tx with
  | error error =>
    rw [hd] at own
    cases own
  | ok call =>
    rw [hd] at route own
    simp only at route own
    split at route
    · cases route
    · rename_i token
      cases route
      refine ⟨List.mem_append_left _ own, ?_⟩
      rw [Call.resources_of_token (Bool.eq_false_iff.mpr token)] at own
      obtain ⟨owner, _, same⟩ := List.mem_map.mp own
      exact ⟨owner, same.symm⟩

end Route

namespace Transaction

variable {a b : Transaction}

theorem apart_of_unroutable (route : Route.of a = .unroutable) : a.Apart b := by
  intro key own
  rw [Route.resources_unroutable route] at own
  cases own

theorem apart_of_serial {keys : List Key} (serial : Route.of a = .serial)
    (grouped : Route.of b = .grouped keys) : a.Apart b := by
  intro key ha hb
  obtain ⟨_, owner, he⟩ := Route.balance_of_grouped grouped hb
  rw [Route.eq_round_of_serial serial ha] at he
  exact Key.balance_ne_round owner he.symm

end Transaction

namespace Grouping

def calls (transactions : List Transaction) : List (Transaction × List Key) :=
  transactions.filterMap fun tx => (Route.of tx).keys?.map (tx, ·)

theorem partition_eq (groups : List (Transaction × List Key) → List (List Transaction))
    (transactions : List Transaction) :
    partition groups transactions =
      ⟨transactions.filter (Route.of · == .serial), groups (calls transactions),
        transactions.filter (Route.of · == .unroutable)⟩ := by
  simp only [partition, calls, List.filter_map, List.map_map, List.filterMap_map]
  congr 1
  · exact List.map_id _
  · exact List.map_id _

theorem route_of_mem_calls {transactions : List Transaction} {call : Transaction × List Key}
    (mem : call ∈ calls transactions) : Route.of call.1 = .grouped call.2 := by
  obtain ⟨tx, _, found⟩ := List.mem_filterMap.mp mem
  obtain ⟨keys, hk, rfl⟩ := Option.map_eq_some_iff.mp found
  cases hr : Route.of tx with
  | grouped own =>
    rw [hr] at hk
    cases hk
    rfl
  | serial =>
    rw [hr] at hk
    cases hk
  | unroutable =>
    rw [hr] at hk
    cases hk

theorem calls_fst (transactions : List Transaction) :
    (calls transactions).map Prod.fst =
      transactions.filter fun tx => (Route.of tx).keys?.isSome := by
  induction transactions with
  | nil => rfl
  | cons tx rest ih =>
    rw [List.filter_cons, ← ih, calls, List.filterMap_cons]
    cases Route.of tx <;> rfl

/-- A block sorts into its serial, its grouped and its unroutable transactions. -/
theorem shuffle_routes (transactions : List Transaction) :
    Shuffle Transaction.Apart transactions
      (transactions.filter (Route.of · == .serial) ++ ((calls transactions).map Prod.fst ++
        transactions.filter (Route.of · == .unroutable))) := by
  have serial : Shuffle Transaction.Apart transactions _ :=
    .front (Route.of · == .serial) transactions (by
      intro a _ b _ ha hb
      have hb := eq_of_beq hb
      cases hr : Route.of a with
      | serial => simp [hr] at ha
      | unroutable => exact Transaction.apart_of_unroutable hr
      | grouped keys => exact (Transaction.apart_of_serial hb hr).symm)
  have grouped : Shuffle Transaction.Apart
      (transactions.filter fun tx => !(Route.of tx == .serial)) _ :=
    .front (fun tx => (Route.of tx).keys?.isSome) _ (by
      intro a ha b _ ungrouped _
      have ha := (List.mem_filter.mp ha).2
      cases hr : Route.of a with
      | serial => simp [hr] at ha
      | unroutable => exact Transaction.apart_of_unroutable hr
      | grouped keys => simp [hr, Route.keys?] at ungrouped)
  have first : (transactions.filter fun tx => !(Route.of tx == .serial)).filter
      (fun tx => (Route.of tx).keys?.isSome) = (calls transactions).map Prod.fst := by
    rw [calls_fst, List.filter_filter]
    apply List.filter_congr
    intro tx _
    cases Route.of tx <;> rfl
  have second : (transactions.filter fun tx => !(Route.of tx == .serial)).filter
      (fun tx => !(Route.of tx).keys?.isSome) =
        transactions.filter (Route.of · == .unroutable) := by
    rw [List.filter_filter]
    apply List.filter_congr
    intro tx _
    cases Route.of tx <;> rfl
  rw [first, second] at grouped
  exact serial.trans (.append_left _ grouped)

/-- The root that a call's place in a block ends up under. -/
def component (transactions : List Transaction) (call : (Transaction × List Key) × Nat) : Nat :=
  (tied ((calls transactions).map Prod.snd)).root call.2

def components (transactions : List Transaction) : List (List Transaction) :=
  (gather (component transactions) (calls transactions).zipIdx).map (List.map fun call => call.1.1)

theorem names_of_mem_calls {transactions : List Transaction} {call : (Transaction × List Key) × Nat}
    (mem : call ∈ (calls transactions).zipIdx) {key : Key} (own : key ∈ call.1.2) :
    Names ((calls transactions).map Prod.snd) key call.2 := by
  refine ⟨call.1.2, ?_, own⟩
  rw [List.getElem?_map, List.mem_zipIdx_iff_getElem?.mp mem, Option.map_some]

/-- Calls of different groups name no key in common. -/
theorem unshared_of_component {transactions : List Transaction}
    {a b : (Transaction × List Key) × Nat} (ha : a ∈ (calls transactions).zipIdx)
    (hb : b ∈ (calls transactions).zipIdx)
    (different : component transactions a ≠ component transactions b) {key : Key}
    (own : key ∈ a.1.2) : key ∉ b.1.2 :=
  fun other => different (tied_root (names_of_mem_calls ha own) (names_of_mem_calls hb other))

theorem apart_of_component {transactions : List Transaction}
    {a b : (Transaction × List Key) × Nat} (ha : a ∈ (calls transactions).zipIdx)
    (hb : b ∈ (calls transactions).zipIdx)
    (different : component transactions a ≠ component transactions b) : a.1.1.Apart b.1.1 := by
  intro key ownA ownB
  have named : ∀ call ∈ (calls transactions).zipIdx, key ∈ call.1.1.resources → key ∈ call.1.2 := by
    intro call hm own
    exact (Route.balance_of_grouped (route_of_mem_calls (List.fst_mem_of_mem_zipIdx hm)) own).1
  exact unshared_of_component ha hb different (named a ha ownA) (named b hb ownB)

/-- Collecting calls by the roots found one after the other gives the components. -/
theorem collect_roots (transactions : List Transaction) :
    collect (((tied ((calls transactions).map Prod.snd)).roots
      (List.range (calls transactions).length)).zip ((calls transactions).map Prod.fst)) =
        components transactions := by
  have labelled : ((tied ((calls transactions).map Prod.snd)).roots
      (List.range (calls transactions).length)).zip ((calls transactions).map Prod.fst) =
        (calls transactions).zipIdx.map fun call => (component transactions call, call.1.1) := by
    rw [(forest_tied _).roots_eq]
    apply List.ext_getElem
    · simp
    · intro place _ _
      simp [component]
  rw [labelled, collect_map]
  rfl

theorem shuffle_components (transactions : List Transaction) :
    Shuffle Transaction.Apart ((calls transactions).map Prod.fst)
      (components transactions).flatten := by
  have sorted : Shuffle (fun a b => a.1.1.Apart b.1.1) (calls transactions).zipIdx _ :=
    .classes (component transactions)
      (nodup_eraseDups ((calls transactions).zipIdx.map (component transactions)))
      (fun call hm => List.mem_eraseDups.mpr (List.mem_map_of_mem hm))
      (fun a ha b hb => apart_of_component ha hb)
  have placed : (calls transactions).zipIdx.map (fun call => call.1.1) =
      (calls transactions).map Prod.fst := by
    rw [← List.zipIdx_map_fst 0 (calls transactions), List.map_map, List.zipIdx_map_fst]
    rfl
  have mapped := Shuffle.map (fun call : (Transaction × List Key) × Nat => call.1.1)
    (fun _ _ apart => apart) sorted
  rwa [placed, List.flatMap_def, ← gather, List.map_flatten] at mapped

theorem components_ne_nil {transactions : List Transaction} :
    ∀ group ∈ components transactions, group ≠ [] := by
  intro group hm empty
  obtain ⟨calls, hg, rfl⟩ := List.mem_map.mp hm
  exact gather_ne_nil calls hg (List.map_eq_nil_iff.mp empty)

theorem components_pairwise {R : Transaction → Transaction → Prop} {transactions : List Transaction}
    (between : ∀ a ∈ (calls transactions).zipIdx, ∀ b ∈ (calls transactions).zipIdx,
      component transactions a ≠ component transactions b → R a.1.1 b.1.1) :
    (components transactions).Pairwise fun earlier later => ∀ a ∈ earlier, ∀ b ∈ later, R a b := by
  rw [components, List.pairwise_map]
  refine gather_pairwise.imp_of_mem ?_
  intro earlier later he hl different a ha b hb
  obtain ⟨call, hc, rfl⟩ := List.mem_map.mp ha
  obtain ⟨other, ho, rfl⟩ := List.mem_map.mp hb
  exact between call (mem_of_mem_gather he hc) other (mem_of_mem_gather hl ho)
    (different call hc other ho)

end Grouping

namespace Grouper

variable (context : ChainContext) (transactions : List Transaction)

theorem byResource_eq :
    byResource context transactions =
      ⟨transactions.filter (Route.of · == .serial), Grouping.components transactions,
        transactions.filter (Route.of · == .unroutable)⟩ := by
  rw [byResource, Grouping.partition_eq, Grouping.collect_roots]

/-- The partition by resources is a reordering of the block that no transaction notices. -/
theorem byResource_shuffle :
    Shuffle Transaction.Apart transactions (byResource context transactions).toList := by
  rw [byResource_eq]
  exact (Grouping.shuffle_routes transactions).trans
    (.append_left _ (.append_right _ (Grouping.shuffle_components transactions)))

theorem byResource_fault :
    (byResource context transactions).fault? (transactions.map Transaction.id) = none := by
  refine Partition.fault?_eq_none_iff.mpr ⟨?_, ?_⟩
  · rw [byResource_eq]
    exact Grouping.components_ne_nil
  · exact ((byResource_shuffle context transactions).perm.map Transaction.id).symm

theorem byResource_pairwise :
    (byResource context transactions).groups.Pairwise fun earlier later =>
      ∀ a ∈ earlier, ∀ b ∈ later, a.Apart b := by
  rw [byResource_eq]
  exact Grouping.components_pairwise fun _ ha _ hb => Grouping.apart_of_component ha hb

variable {context transactions} {tx : Transaction}

theorem route_serial (mem : tx ∈ (byResource context transactions).serial) :
    Route.of tx = .serial := by
  rw [byResource_eq] at mem
  exact eq_of_beq (List.mem_filter.mp mem).2

theorem route_unroutable (mem : tx ∈ (byResource context transactions).unroutable) :
    Route.of tx = .unroutable := by
  rw [byResource_eq] at mem
  exact eq_of_beq (List.mem_filter.mp mem).2

theorem route_grouped (mem : tx ∈ (byResource context transactions).groups.flatten) :
    ∃ keys, Route.of tx = .grouped keys := by
  rw [byResource_eq] at mem
  have called := (Grouping.shuffle_components transactions).perm.mem_iff.mpr mem
  obtain ⟨call, hm, rfl⟩ := List.mem_map.mp called
  exact ⟨call.2, Grouping.route_of_mem_calls hm⟩

end Grouper
end GroupedLedger
