import GroupedLedger.Proofs.Blocks
import GroupedLedger.Proofs.Overlays
import GroupedLedger.Proofs.Procedures

namespace GroupedLedger
namespace Vm

/-- The effect of a transaction on what is found under each key. -/
def effect (below : Lookup) (tx : Transaction) : Effect :=
  (transact ⟨below, fun _ => false⟩ tx).1

/-- The effects of a batch, each on what the ones before it left. -/
def effects (below : Lookup) : List Transaction → List Effect
  | [] => []
  | tx :: rest => effect below tx :: effects ((effect below tx).lasting.onto below) rest

/-- The effect that a run of a call leaves: without its changes if the call failed. -/
def finished : Except CallFailure Value → Effect → Effect
  | .ok returned, effect => effect.finish .mined none returned
  | .error failure, effect => effect.clear.finish .failed (some failure.message) []

theorem transact_eq (state : StateView) (tx : Transaction) :
    (transact state tx).1 =
      finished (tx.procedure.run state ⟨Effect.fresh tx.id, false⟩).1
        (tx.procedure.run state ⟨Effect.fresh tx.id, false⟩).2.effect := by
  rcases hr : tx.procedure.run state ⟨Effect.fresh tx.id, false⟩ with ⟨answer, frame⟩
  cases answer <;> simp only [transact, hr, finished]

theorem snd_transact (state : StateView) (tx : Transaction) :
    (transact state tx).2 = (tx.procedure.run state ⟨Effect.fresh tx.id, false⟩).2.tripped := by
  rcases hr : tx.procedure.run state ⟨Effect.fresh tx.id, false⟩ with ⟨answer, frame⟩
  cases answer <;> simp only [transact, hr]

theorem accesses_finished (answer : Except CallFailure Value) (effect : Effect) :
    (finished answer effect).accesses = effect.accesses := by
  cases answer <;> rfl

theorem id_finished (answer : Except CallFailure Value) (effect : Effect) :
    (finished answer effect).id = effect.id := by
  cases answer <;> rfl

theorem changedKeys_finished {answer : Except CallFailure Value} {effect : Effect} {key : Key}
    (changed : key ∈ (finished answer effect).changedKeys) : key ∈ effect.changedKeys := by
  cases answer with
  | ok returned => exact changed
  | error failure => exact absurd changed (Effect.not_mem_changedKeys_clear effect key)

/-- A transaction sees nothing of a state but the keys it notes as touched. -/
theorem transact_congr {state other : StateView} {tx : Transaction}
    (agree : ∀ key ∈ (transact state tx).1.accesses, other.get? key = state.get? key) :
    (transact other tx).1 = (transact state tx).1 := by
  simp only [transact_eq, accesses_finished] at agree ⊢
  obtain ⟨answer, changed⟩ := tx.procedure.run_congr rfl agree
  rw [answer, changed]

theorem transact_effect (state : StateView) (tx : Transaction) :
    (transact state tx).1 = effect state.get? tx :=
  transact_congr fun _ _ => rfl

theorem transact_untripped {state : StateView} {tx : Transaction}
    (calm : ∀ key ∈ (transact state tx).1.accesses, state.trips key = false) :
    (transact state tx).2 = false := by
  rw [transact_eq, accesses_finished] at calm
  rw [snd_transact]
  exact tx.procedure.run_untripped calm rfl

theorem effect_congr {below other : Lookup} {tx : Transaction}
    (agree : ∀ key ∈ (effect below tx).accesses, other key = below key) :
    effect other tx = effect below tx :=
  transact_congr agree

theorem effect_id (below : Lookup) (tx : Transaction) : (effect below tx).id = tx.id := by
  rw [effect, transact_eq, id_finished]
  exact tx.procedure.within_any.run_keeps (P := fun effect => effect.id = tx.id)
    (fun _ _ _ h => h) (fun _ _ _ _ h => h) (fun _ _ _ h => h) _ rfl

theorem effect_status (below : Lookup) (tx : Transaction) :
    (effect below tx).status = .mined ∨ (effect below tx).status = .failed := by
  rw [effect, transact_eq]
  cases (tx.procedure.run _ _).1 with
  | ok returned => exact .inl rfl
  | error failure => exact .inr rfl

/-- What a call may read and change is all that its effect notes. -/
theorem effect_confined {tx : Transaction} {reads changes : Key → Prop}
    (below : Lookup) (within : tx.procedure.Within reads changes) :
    (effect below tx).Confined reads changes := by
  have confined := within.confined ⟨below, fun _ => false⟩ ⟨Effect.fresh tx.id, false⟩
    (Effect.confined_fresh tx.id)
  rw [effect, transact_eq]
  constructor
  · intro key access found
    rw [accesses_finished] at found
    exact confined.noted key access found
  · intro key changed
    rw [accesses_finished]
    exact confined.changed key (changedKeys_finished changed)

theorem effect_consistent (below : Lookup) (tx : Transaction) :
    ∀ key ∈ (effect below tx).changedKeys, key ∈ (effect below tx).accesses :=
  fun _ => (effect_confined below tx.procedure.within_any).touches

theorem effects_congr {below other : Lookup} {transactions : List Transaction}
    (agree : ∀ effect ∈ effects below transactions, ∀ key ∈ effect.accesses,
      other key = below key) :
    effects other transactions = effects below transactions := by
  induction transactions generalizing below other with
  | nil => rfl
  | cons tx rest ih =>
    have first : effect other tx = effect below tx := effect_congr (agree _ (by simp [effects]))
    rw [effects, effects, first, ih]
    intro later hm key hk
    exact Overlay.onto_congr _ (agree later (by simp [effects, hm]) key hk)

/-- A batch has the same effects behind others that change nothing it touches. -/
theorem effects_behind {below : Lookup} {before : List Effect} {transactions : List Transaction}
    (unseen : ∀ one ∈ before, ∀ other ∈ effects below transactions,
      ∀ key ∈ one.changedKeys, key ∉ other.accesses) :
    effects ((Overlay.ofEffects before).onto below) transactions = effects below transactions := by
  apply effects_congr
  intro other hm key touched
  apply Overlay.onto_of_unread
  apply Overlay.read_ofEffects_eq_none
  exact fun one ho changed => unseen one ho other hm key changed touched

theorem effects_append (below : Lookup) (first rest : List Transaction) :
    effects below (first ++ rest) =
      effects below first ++
        effects ((Overlay.ofEffects (effects below first)).onto below) rest := by
  induction first generalizing below with
  | nil => simp [effects]
  | cons tx first ih =>
    simp only [List.cons_append, effects, ih, Overlay.ofEffects_cons, Overlay.onto_onto]

theorem effects_take (below : Lookup) (transactions : List Transaction) (count : Nat) :
    (effects below transactions).take count = effects below (transactions.take count) := by
  induction transactions generalizing below count with
  | nil => simp [effects]
  | cons tx rest ih =>
    cases count with
    | zero => rfl
    | succ count => simp only [effects, List.take_succ_cons, ih]

theorem effects_getElem? {below : Lookup} {transactions : List Transaction} {place : Nat}
    {tx : Transaction} (stands : transactions[place]? = some tx) :
    (effects below transactions)[place]? = some (effect
      ((Overlay.ofEffects ((effects below transactions).take place)).onto below) tx) := by
  induction transactions generalizing below place with
  | nil => cases stands
  | cons first rest ih =>
    cases place with
    | zero =>
      cases stands
      simp [effects]
    | succ place =>
      rw [List.getElem?_cons_succ] at stands
      rw [effects, List.getElem?_cons_succ, ih stands, List.take_succ_cons, Overlay.ofEffects_cons,
        Overlay.onto_onto]

theorem effects_map_id (below : Lookup) (transactions : List Transaction) :
    (effects below transactions).map Effect.id = transactions.map Transaction.id := by
  induction transactions generalizing below with
  | nil => rfl
  | cons tx rest ih => simp only [effects, List.map_cons, effect_id, ih]

theorem length_effects (below : Lookup) (transactions : List Transaction) :
    (effects below transactions).length = transactions.length := by
  simpa using congrArg List.length (effects_map_id below transactions)

theorem exists_of_mem_effects {below : Lookup} {transactions : List Transaction} {one : Effect}
    (mem : one ∈ effects below transactions) :
    ∃ tx ∈ transactions, ∃ found, one = effect found tx := by
  induction transactions generalizing below with
  | nil => simp [effects] at mem
  | cons tx rest ih =>
    rcases List.mem_cons.mp mem with rfl | hm
    · exact ⟨tx, by simp, below, rfl⟩
    · obtain ⟨later, hl, found, he⟩ := ih hm
      exact ⟨later, by simp [hl], found, he⟩

/-- Which transactions of a batch raise the signal: each is told whether one of its look-ups does.
-/
def raises (state : StateView) (pending : Overlay) : List Transaction → List Bool
  | [] => []
  | tx :: rest =>
    let now := state.through pending.read
    (transact now tx).2 :: raises state (pending.absorb (transact now tx).1) rest

/-- Whether a batch finds the signal up at one of its looks, given which transactions raise it. -/
def stops (index : Nat) (token : Token) : List Bool → Bool
  | [] => false
  | raised :: rest =>
    let (up, left) := poll index token
    up || stops (index + 1) (if raised then left.signal else left) rest

/-- A batch comes to all its effects or to none. -/
theorem batch_eq (state : StateView) (index : Nat) (pending : Overlay) (token : Token)
    (transactions : List Transaction) :
    (batch state index pending token transactions).1 =
      if stops index token (raises state pending transactions) then .error .cancelled
      else .ok (effects (pending.onto state.get?) transactions) := by
  induction transactions generalizing index pending token with
  | nil => rfl
  | cons tx rest ih =>
    rcases ht : transact (state.through pending.read) tx with ⟨noted, raised⟩
    have first : noted = effect (pending.onto state.get?) tx := by
      rw [← Overlay.get?_through, ← transact_effect, ht]
    simp only [batch, raises, stops, ht, effects]
    rcases poll index token with ⟨_ | _, left⟩
    · simp only [ih, Bool.false_or, Overlay.absorb_eq, Overlay.onto_onto, first]
      generalize stops (index + 1) _ _ = stopped
      cases stopped <;> rfl
    · rfl

theorem batch_ok {state : StateView} {index : Nat} {pending : Overlay} {token : Token}
    {transactions : List Transaction} {done : List Effect}
    (ok : (batch state index pending token transactions).1 = .ok done) :
    done = effects (pending.onto state.get?) transactions := by
  rw [batch_eq] at ok
  split at ok
  · cases ok
  · exact (Except.ok.inj ok).symm

theorem execute_eq (transactions : List Transaction) (base : StateView) (overlay : Overlay)
    (token : Token) : (execute transactions base overlay token).1 =
      if stops 0 token (raises (base.through overlay.read) .empty transactions) then
        .error .cancelled
      else .ok (effects (overlay.onto base.get?) transactions) := by
  rw [execute, batch_eq, Overlay.empty_onto, Overlay.get?_through]

theorem execute_ok {base : StateView} {overlay : Overlay} {token : Token}
    {transactions : List Transaction} {done : List Effect}
    (ok : (execute transactions base overlay token).1 = .ok done) :
    done = effects (overlay.onto base.get?) transactions := by
  have ended := batch_ok ok
  rwa [Overlay.empty_onto, Overlay.get?_through] at ended

/-- Where a transaction of a batch stands, it has its effect on what is pending by then. -/
theorem effect_of_place {base : StateView} {overlay : Overlay} {token : Token}
    {transactions : List Transaction} {done : List Effect}
    (ok : (execute transactions base overlay token).1 = .ok done) {place : Nat} {tx : Transaction}
    {here : Effect} (stands : transactions[place]? = some tx) (had : done[place]? = some here) :
    here = effect ((Overlay.merge (some overlay) (done.take place)).onto base.get?) tx ∧
      (Overlay.merge (some overlay) (done.take (place + 1))).onto base.get? =
        here.lasting.onto ((Overlay.merge (some overlay) (done.take place)).onto base.get?) := by
  constructor
  · have found := @effects_getElem? (overlay.onto base.get?) _ _ _ stands
    rw [← execute_ok ok, had] at found
    rw [Overlay.merge_onto]
    exact Option.some.inj found
  · rw [List.take_add_one, had, Option.toList_some, Overlay.merge_append, ← Overlay.onto_onto,
      Overlay.ofEffects_cons, Overlay.ofEffects_nil, Overlay.extend_empty]

theorem poll_quiet (index : Nat) : poll index .quiet = (false, .quiet) := by
  unfold poll
  split <;> rfl

theorem batch_quiet {state : StateView} (index : Nat) {pending : Overlay}
    {transactions : List Transaction}
    (calm : ∀ effect ∈ effects (pending.onto state.get?) transactions, ∀ key ∈ effect.accesses,
      state.trips key = false) :
    batch state index pending .quiet transactions =
      (.ok (effects (pending.onto state.get?) transactions), .quiet) := by
  induction transactions generalizing index pending with
  | nil => rfl
  | cons tx rest ih =>
    have first := transact_effect (state.through pending.read) tx
    rw [Overlay.get?_through] at first
    rw [effects, Overlay.onto_onto] at calm ⊢
    obtain ⟨now, later⟩ := List.forall_mem_cons.mp calm
    have untripped : (transact (state.through pending.read) tx).2 = false := by
      apply transact_untripped
      intro key touched
      rw [first] at touched
      simp [StateView.through, now key touched]
    rcases ht : transact (state.through pending.read) tx with ⟨noted, tripped⟩
    rw [ht] at first untripped
    simp only at first untripped
    simp only [batch, poll_quiet, ht, untripped, Bool.false_eq_true, if_false, Overlay.absorb_eq,
      first, ih (index + 1) later, Except.map]

theorem execute_untripped {base : StateView} {overlay : Overlay} {transactions : List Transaction}
    (calm : ∀ effect ∈ effects (overlay.onto base.get?) transactions, ∀ key ∈ effect.accesses,
      (base.through overlay.read).trips key = false) :
    execute transactions base overlay .quiet =
      (.ok (effects (overlay.onto base.get?) transactions), .quiet) := by
  have ran := @batch_quiet (base.through overlay.read) 0 .empty transactions
  rw [Overlay.get?_through, Overlay.empty_onto] at ran
  exact ran calm

/-- A batch that nobody interrupts has one effect a transaction and leaves the signal down. -/
theorem execute_quiet {base : StateView} (calm : ∀ key, base.trips key = false)
    (transactions : List Transaction) (overlay : Overlay) :
    execute transactions base overlay .quiet =
      (.ok (effects (overlay.onto base.get?) transactions), .quiet) := by
  apply execute_untripped
  intro effect _ key _
  simp [StateView.through, calm]

end Vm

theorem Executor.contracts_steady {base : StateView} (calm : ∀ key, base.trips key = false) :
    Executor.contracts.Steady base fun transactions overlay =>
      .ok (Vm.effects (overlay.onto base.get?) transactions) where
  answers _ transactions overlay := by
    simp only [Executor.contracts, Vm.execute_quiet calm]
  calm _ _ := rfl

namespace Sample

def alice : Address := .filled 20 1

def bob : Address := .filled 20 2

def carol : Address := .filled 20 3

def nextRound : Transaction := Call.nextRound.toTransaction alice 0

def payBob : Transaction := (Call.transfer bob 3).toTransaction alice 1

def payCarol : Transaction := (Call.transfer carol 1).toTransaction bob 0

/-- Calls an address without a contract. -/
def stray : Transaction := { payBob with target := carol }

def block : List Transaction := [payCarol, stray, payBob, nextRound]

def header : Header := ⟨1, .filled 32 0⟩

def genesis : Snapshot :=
  (Snapshot.empty.insert (.balance alice) (Bytes.ofWord 10)).insert (.balance bob) (Bytes.ofWord 5)

/-- What Carol has is corrupt, so a payment to her fails after it was taken off. -/
def spoiled : Snapshot := genesis.insert (.balance carol) [1]

/-- Two workers, and a grouper that puts each payment in a group of its own. Both touch what Bob
has, so only the first of these groups is accepted. -/
def engine : Engine where
  threads := 2
  grouper _ _ := ⟨[nextRound], [[payBob], [payCarol]], [stray]⟩
  executor := .contracts

theorem partition_fault :
    (engine.partition header block).fault? (block.map Transaction.id) = none := by
  decide +kernel

end Sample
end GroupedLedger
