import GroupedLedger.Proofs.Executions
import GroupedLedger.Proofs.Merging

namespace GroupedLedger

namespace Token

/-- The signal is up at the look that follows this many others. -/
def Due (token : Token) (looks : Nat) : Prop := ∃ fuse, token.fuse = some fuse ∧ fuse ≤ looks

theorem due_signal (token : Token) (looks : Nat) : token.signal.Due looks :=
  ⟨0, rfl, Nat.zero_le looks⟩

theorem poll_up_iff (token : Token) : token.poll.1 = true ↔ token.Due 0 := by
  rcases token with ⟨_ | _ | fuse⟩ <;> simp [poll, Due]

theorem poll_due_iff {token : Token} (down : token.poll.1 = false) (looks : Nat) :
    token.poll.2.Due looks ↔ token.Due (looks + 1) := by
  rcases token with ⟨_ | _ | fuse⟩
  · simp [poll, Due]
  · simp [poll] at down
  · simp [poll, Due]

end Token

namespace Procedure

variable {α β : Type}

/-- The keys that a procedure looks up in the state below it, in order. It finds the others in what
it has itself done so far. -/
def lookups (below : Lookup) : Procedure α → Overlay → List Key
  | .done _, _ => []
  | .fail _, _ => []
  | .read key next, own =>
    let rest := (next (own.onto below key)).lookups below own
    if own.read key = none then key :: rest else rest
  | .write key value next, own => next.lookups below (own.set key value)
  | .delete key next, own => next.lookups below (own.delete key)

/-- A run raises the signal exactly if it looks up a key below that the state trips on. -/
theorem run_tripped (p : Procedure α) (state : StateView) (frame : Frame)
    (exclusive : frame.effect.Exclusive) :
    (p.run state frame).2.tripped =
      (frame.tripped || (p.lookups state.get? frame.effect.overlay).any state.trips) := by
  induction p generalizing frame with
  | done _ => simp [run, lookups]
  | fail _ => simp [run, lookups]
  | read key next ih =>
    simp only [run, read_frame exclusive, lookups]
    rw [ih]
    · change (_ || List.any (lookups state.get? _ frame.effect.overlay) state.trips) = _
      cases known : frame.effect.overlay.read key with
      | none => simp [StateView.through, known, Bool.or_assoc]
      | some pending => simp [StateView.through, known]
    · exact exclusive
  | write key value next ih =>
    have later := ih { frame with effect := frame.effect.write key value }
      (exclusive.write key value)
    rwa [Effect.overlay_write] at later
  | delete key next ih =>
    have later := ih { frame with effect := frame.effect.delete key } (exclusive.delete key)
    rwa [Effect.overlay_delete] at later

/-- Every key that is changed was read before, by the procedure itself or among those seen already.
-/
def ReadsFirst : Procedure α → List Key → Prop
  | .done _, _ => True
  | .fail _, _ => True
  | .read key next, seen => ∀ value, (next value).ReadsFirst (key :: seen)
  | .write key _ next, seen => key ∈ seen ∧ next.ReadsFirst seen
  | .delete key next, seen => key ∈ seen ∧ next.ReadsFirst seen

section ReadsFirst

variable {seen : List Key} {key : Key}

theorem readsFirst_readWord_bind {next : UInt64 → Procedure β}
    (rest : ∀ word, (next word).ReadsFirst (key :: seen)) :
    (readWord key >>= next).ReadsFirst seen := by
  intro value
  change ((_ : Procedure UInt64).bind next).ReadsFirst (key :: seen)
  cases value with
  | none => exact rest 0
  | some value =>
    simp only
    cases Bytes.toWord? value with
    | none => trivial
    | some word => exact rest word

theorem readsFirst_require_bind {condition : Bool} {failure : CallFailure}
    {next : Unit → Procedure β} (rest : (next ()).ReadsFirst seen) :
    (require condition failure >>= next).ReadsFirst seen := by
  cases condition with
  | true => exact rest
  | false => trivial

theorem readsFirst_add_bind {a b : UInt64} {next : UInt64 → Procedure β}
    (rest : (next (a + b)).ReadsFirst seen) : (add a b >>= next).ReadsFirst seen := by
  unfold add
  split
  · exact rest
  · trivial

/-- If what is changed was read before, a run notes as touched what it looks up below, and nothing
else. -/
theorem mem_accesses_run_iff (p : Procedure α) (state : StateView) {frame : Frame}
    (first : p.ReadsFirst seen) (exclusive : frame.effect.Exclusive)
    (noted : ∀ key ∈ seen, key ∈ frame.effect.accesses)
    (consistent : ∀ key ∈ frame.effect.changedKeys, key ∈ frame.effect.accesses) :
    key ∈ (p.run state frame).2.effect.accesses ↔
      key ∈ frame.effect.accesses ∨ key ∈ p.lookups state.get? frame.effect.overlay := by
  induction p generalizing frame seen with
  | done _ => simp [run, lookups]
  | fail _ => simp [run, lookups]
  | read asked next ih =>
    have later := @ih (frame.effect.overlay.onto state.get? asked) (asked :: seen)
      (frame.read state asked).2 (first _) exclusive
      (fun other mem => Effect.mem_accesses_read.mpr ((List.mem_cons.mp mem).imp id (noted other)))
      (fun other changed => Effect.mem_accesses_read.mpr (.inr (consistent other changed)))
    simp only [run, read_frame exclusive, lookups] at later ⊢
    rw [later, Effect.mem_accesses_read]
    change _ ∨ key ∈ lookups state.get? _ frame.effect.overlay ↔ _
    cases known : frame.effect.overlay.read asked with
    | none => simp [or_assoc, or_left_comm]
    | some pending =>
      -- What is answered by an own change was noted as touched with that change.
      have own : asked ∈ frame.effect.accesses := by
        apply consistent
        by_contra unchanged
        rw [Effect.read_overlay_eq_none.mpr unchanged] at known
        cases known
      have absorbed : key = asked → key ∈ frame.effect.accesses := fun same => same ▸ own
      simp only [reduceCtorEq, if_false]
      rw [or_iff_right_of_imp absorbed]
  | write written value next ih =>
    have known := noted written first.1
    have later := @ih seen { frame with effect := frame.effect.write written value } first.2
      (exclusive.write written value)
      (fun other mem => Effect.mem_accesses_write.mpr (.inr (noted other mem)))
      (fun other changed => Effect.mem_accesses_write.mpr
        ((Effect.mem_changedKeys_write changed).imp id (consistent other)))
    rw [Effect.overlay_write, Effect.mem_accesses_write,
      or_iff_right_of_imp fun same : key = written => same ▸ known] at later
    exact later
  | delete deleted next ih =>
    have known := noted deleted first.1
    have later := @ih seen { frame with effect := frame.effect.delete deleted } first.2
      (exclusive.delete deleted)
      (fun other mem => Effect.mem_accesses_delete.mpr (.inr (noted other mem)))
      (fun other changed => Effect.mem_accesses_delete.mpr
        ((Effect.mem_changedKeys_delete changed).imp id (consistent other)))
    rw [Effect.overlay_delete, Effect.mem_accesses_delete,
      or_iff_right_of_imp fun same : key = deleted => same ▸ known] at later
    exact later

end ReadsFirst

end Procedure

namespace Call

theorem effects_readsFirst (sender : Address) (call : Call) (seen : List Key) :
    (call.effects sender).ReadsFirst seen := by
  cases call with
  | transfer recipient amount =>
    refine Procedure.readsFirst_readWord_bind fun available => ?_
    refine Procedure.readsFirst_require_bind ⟨List.mem_cons_self, ?_⟩
    refine Procedure.readsFirst_readWord_bind fun received => ?_
    exact Procedure.readsFirst_add_bind ⟨List.mem_cons_self, trivial⟩
  | sweep recipient =>
    refine Procedure.readsFirst_require_bind ?_
    refine Procedure.readsFirst_readWord_bind fun swept => ?_
    refine Procedure.readsFirst_readWord_bind fun received => ?_
    refine Procedure.readsFirst_add_bind ⟨?_, List.mem_cons_self, trivial⟩
    exact List.mem_cons_of_mem _ List.mem_cons_self
  | getBalance owner => exact Procedure.readsFirst_readWord_bind fun held => trivial
  | nextRound =>
    refine Procedure.readsFirst_readWord_bind fun round => ?_
    exact Procedure.readsFirst_add_bind ⟨List.mem_cons_self, trivial⟩

theorem checkMinimum_readsFirst {β : Type} (minimum : UInt64) (call : Call) {seen : List Key}
    {next : Unit → Procedure β} (rest : (next ()).ReadsFirst seen) :
    (call.checkMinimum minimum >>= next).ReadsFirst seen := by
  cases call with
  | transfer recipient amount => exact Procedure.readsFirst_require_bind rest
  | _ => exact rest

end Call

/-- A transaction changes no key that it has not read before. -/
theorem Transaction.procedure_readsFirst (tx : Transaction) : tx.procedure.ReadsFirst [] := by
  unfold procedure
  cases Call.decode tx with
  | error error => trivial
  | ok call =>
    simp only [Call.procedure]
    split
    · exact call.effects_readsFirst tx.sender []
    · refine Procedure.readsFirst_readWord_bind fun minimum => ?_
      exact call.checkMinimum_readsFirst minimum (call.effects_readsFirst tx.sender _)

namespace Vm

def looked (below : Lookup) (tx : Transaction) : List Key := tx.procedure.lookups below .empty

variable {below : Lookup} {tx : Transaction}

theorem transact_tripped (state : StateView) (tx : Transaction) :
    (transact state tx).2 = (looked state.get? tx).any state.trips := by
  rw [snd_transact, Procedure.run_tripped _ _ _ (Effect.exclusive_fresh tx.id), Bool.false_or,
    Effect.overlay_fresh]
  rfl

/-- What a transaction looks up is what its effect notes as touched. -/
theorem mem_looked_iff {key : Key} : key ∈ looked below tx ↔ key ∈ (effect below tx).accesses := by
  have untouched : key ∉ (Effect.fresh tx.id).accesses := by simp [Effect.fresh]
  have noted := @Procedure.mem_accesses_run_iff _ _ key tx.procedure ⟨below, fun _ => false⟩
    ⟨Effect.fresh tx.id, false⟩ tx.procedure_readsFirst (Effect.exclusive_fresh tx.id)
    (fun _ mem => absurd mem List.not_mem_nil) (by simp [Effect.mem_changedKeys, Effect.fresh])
  rw [Effect.overlay_fresh, or_iff_right untouched] at noted
  rw [effect, transact_eq, accesses_finished, noted]
  rfl

theorem getElem?_raises (state : StateView) (pending : Overlay) (transactions : List Transaction)
    (place : Nat) :
    (raises state pending transactions)[place]? = transactions[place]?.map fun tx =>
      (transact (state.through (pending.extend (.ofEffects
        ((effects (pending.onto state.get?) transactions).take place))).read) tx).2 := by
  induction transactions generalizing pending place with
  | nil => rfl
  | cons tx rest ih =>
    cases place with
    | zero => simp [raises]
    | succ place =>
      have first := transact_effect (state.through pending.read) tx
      rw [Overlay.get?_through] at first
      simp only [raises, List.getElem?_cons_succ, ih, effects, List.take_succ_cons,
        Overlay.ofEffects_cons, Overlay.absorb_eq, Overlay.onto_onto, Overlay.extend_assoc, first]

theorem poll_up_iff (index : Nat) (token : Token) :
    (poll index token).1 = true ↔ index % 16 = 0 ∧ token.Due 0 := by
  rw [poll, pollInterval]
  split
  · rename_i due
    rw [token.poll_up_iff, and_iff_right due]
  · rename_i other
    simp [other]

theorem poll_due_iff {index : Nat} {token : Token} (down : (poll index token).1 = false)
    (looks : Nat) : (poll index token).2.Due looks ↔
      token.Due (if index % 16 = 0 then looks + 1 else looks) := by
  rw [poll, pollInterval] at down ⊢
  split
  · rename_i due
    rw [if_pos due] at down
    exact Token.poll_due_iff down looks
  · rfl

/-- Whether a batch finds the signal up at the look before the transaction at a place. Looks are
taken before the transactions whose index is a multiple of sixteen, so how many come before such an
index is a quotient. -/
def StopsAt (index : Nat) (token : Token) (raised : List Bool) (place : Nat) : Prop :=
  (index + place) % 16 = 0 ∧ (token.Due ((index + place) / 16 - (index + 15) / 16) ∨
    ∃ earlier < place, raised[earlier]? = some true)

variable {index : Nat} {token : Token}

theorem stopsAt_zero (raised : List Bool) :
    StopsAt index token raised 0 ↔ (poll index token).1 = true := by
  have none : index / 16 - (index + 15) / 16 = 0 := by omega
  simp [StopsAt, poll_up_iff, none]

theorem stopsAt_succ (down : (poll index token).1 = false) (now : Bool) (rest : List Bool)
    (place : Nat) : StopsAt index token (now :: rest) (place + 1) ↔
      StopsAt (index + 1) (if now then (poll index token).2.signal else (poll index token).2) rest
        place := by
  have shifted : index + 1 + place = index + (place + 1) := by omega
  rw [StopsAt, StopsAt, shifted, Nat.exists_lt_succ_left]
  refine and_congr_right fun multiple => ?_
  cases now with
  | true => exact iff_of_true (.inr (.inl rfl)) (.inl ((poll index token).2.due_signal _))
  | false =>
    -- The look at this index, if there is one, is one of those that come before any later one.
    have count : (index + (place + 1)) / 16 - (index + 15) / 16 =
        if index % 16 = 0 then (index + (place + 1)) / 16 - (index + 1 + 15) / 16 + 1
        else (index + (place + 1)) / 16 - (index + 1 + 15) / 16 := by
      split <;> omega
    rw [count, ← poll_due_iff down]
    simp

theorem stops_iff (index : Nat) (token : Token) (raised : List Bool) :
    stops index token raised = true ↔ ∃ place < raised.length, StopsAt index token raised place := by
  induction raised generalizing index token with
  | nil => simp [stops]
  | cons now rest ih =>
    rw [List.length_cons, Nat.exists_lt_succ_left, stopsAt_zero]
    cases looked : (poll index token).1 with
    | true => simp [stops, looked]
    | false => simp only [stops, looked, ih, stopsAt_succ looked, Bool.false_or, reduceCtorEq, false_or]

/-- From the start of a batch, the signal stops it if others raised it by one of the looks at it, or
if a transaction raised it with a look still to come. -/
theorem stops_start_iff (token : Token) (raised : List Bool) :
    stops 0 token raised = true ↔
      (∃ looks, token.fuse = some looks ∧ 16 * looks < raised.length) ∨
        ∃ place poll, place < poll ∧ poll < raised.length ∧ poll % 16 = 0 ∧
          raised[place]? = some true := by
  rw [stops_iff]
  constructor
  · rintro ⟨poll, inside, multiple, ⟨looks, burning, spent⟩ | ⟨place, before, raising⟩⟩
    · exact .inl ⟨looks, burning, by omega⟩
    · exact .inr ⟨place, poll, before, inside, by omega, raising⟩
  · rintro (⟨looks, burning, inside⟩ | ⟨place, poll, before, inside, multiple, raising⟩)
    · exact ⟨16 * looks, inside, by omega, .inl ⟨looks, burning, by omega⟩⟩
    · exact ⟨poll, inside, by omega, .inr ⟨place, before, raising⟩⟩

theorem length_raises (state : StateView) (pending : Overlay) (transactions : List Transaction) :
    (raises state pending transactions).length = transactions.length := by
  induction transactions generalizing pending with
  | nil => rfl
  | cons tx rest ih => simp [raises, ih]

/-- The transaction at a place of a batch looks a key up in the base: its call reads the key, and
nothing answers that the call has itself done, that an effect before it has changed or that is
pending. -/
structure LooksUp (below : Lookup) (overlay : Overlay) (transactions : List Transaction)
    (done : List Effect) (place : Nat) (key : Key) : Prop where
  reads : ∃ tx, transactions[place]? = some tx ∧
    key ∈ looked ((Overlay.merge (some overlay) (done.take place)).onto below) tx
  unchanged : ∀ earlier ∈ done.take place, key ∉ earlier.changedKeys
  unknown : overlay.read key = none

theorem read_ofEffects_take {place : Nat} {transactions : List Transaction} {key : Key} :
    (Overlay.ofEffects ((effects below transactions).take place)).read key = none ↔
      ∀ earlier ∈ (effects below transactions).take place, key ∉ earlier.changedKeys := by
  rw [Overlay.read_ofEffects_eq_none_iff]
  refine forall₂_congr fun earlier mem => ?_
  obtain ⟨tx, _, found, rfl⟩ := exists_of_mem_effects (List.mem_of_mem_take mem)
  have kept : (effect found tx).status ≠ .conflict := by
    rcases effect_status found tx with status | status <;> simp [status]
  simp [Effect.Decides, kept]

theorem raises_iff (base : StateView) (overlay : Overlay) (transactions : List Transaction)
    (place : Nat) :
    (raises (base.through overlay.read) .empty transactions)[place]? = some true ↔
      ∃ key, base.trips key = true ∧ LooksUp base.get? overlay transactions
        (effects (overlay.onto base.get?) transactions) place key := by
  rw [getElem?_raises, Overlay.empty_onto, Overlay.get?_through, Overlay.empty_extend,
    Option.map_eq_some_iff]
  simp only [transact_tripped, Overlay.get?_through, List.any_eq_true]
  constructor
  · rintro ⟨tx, stands, key, reads, tripped⟩
    simp only [StateView.through, Bool.and_eq_true, Option.isNone_iff_eq_none] at tripped
    refine ⟨key, tripped.2.2, ⟨tx, stands, ?_⟩, read_ofEffects_take.mp tripped.1, tripped.2.1⟩
    rwa [Overlay.merge_onto]
  · rintro ⟨key, trips, ⟨tx, stands, reads⟩, unchanged, unknown⟩
    rw [Overlay.merge_onto] at reads
    refine ⟨tx, stands, key, reads, ?_⟩
    simp [StateView.through, read_ofEffects_take.mpr unchanged, unknown, trips]

theorem looksUp_iff {transactions : List Transaction} {overlay : Overlay} {place : Nat} {key : Key} :
    LooksUp below overlay transactions (effects (overlay.onto below) transactions) place key ↔
      (∃ here, (effects (overlay.onto below) transactions)[place]? = some here ∧
        key ∈ here.accesses) ∧
      (∀ earlier ∈ (effects (overlay.onto below) transactions).take place,
        key ∉ earlier.changedKeys) ∧ overlay.read key = none := by
  constructor
  · rintro ⟨⟨tx, stands, reads⟩, unchanged, unknown⟩
    rw [Overlay.merge_onto, mem_looked_iff] at reads
    exact ⟨⟨_, effects_getElem? stands, reads⟩, unchanged, unknown⟩
  · rintro ⟨⟨here, had, touched⟩, unchanged, unknown⟩
    obtain ⟨inside, _⟩ := List.getElem?_eq_some_iff.mp had
    rw [length_effects] at inside
    have stands := List.getElem?_eq_getElem inside
    rw [effects_getElem? stands, Option.some.injEq] at had
    subst had
    refine ⟨⟨_, stands, ?_⟩, unchanged, unknown⟩
    rwa [Overlay.merge_onto, mem_looked_iff]

/-- A batch of calls comes to all the effects of the run that nobody interrupts or to none. It comes
to none exactly if it is there to be run and the signal was up from the start, or, raised by others,
came up by one of the looks at it; or if some transaction looks up a key in the base that raises the
signal and there is a look behind it, before a transaction whose index is a multiple of sixteen.
What a transaction looks up in the base is what its effect notes as touched and no effect before it
and nothing pending answers. -/
theorem execute_cancelled_exactly (transactions : List Transaction) (base : StateView)
    (overlay : Overlay) (token : Token) :
    ∃ done, execute transactions ⟨base.get?, fun _ => false⟩ overlay .quiet = (.ok done, .quiet) ∧
      done.map Effect.id = transactions.map Transaction.id ∧
      let run := (execute transactions base overlay token).1
      (run = .ok done ∨ run = .error .cancelled) ∧
      (run = .error .cancelled ↔
        (∃ looks, token.fuse = some looks ∧ 16 * looks < transactions.length) ∨
        ∃ place poll key, place < poll ∧ poll < transactions.length ∧ poll % 16 = 0 ∧
          base.trips key = true ∧ LooksUp base.get? overlay transactions done place key) ∧
      ∀ place key, LooksUp base.get? overlay transactions done place key ↔
        (∃ here, done[place]? = some here ∧ key ∈ here.accesses) ∧
          (∀ earlier ∈ done.take place, key ∉ earlier.changedKeys) ∧ overlay.read key = none := by
  refine ⟨_, execute_quiet (fun _ => rfl) transactions overlay, effects_map_id _ _, ?_, ?_, ?_⟩
  · rw [execute_eq]
    split
    · exact .inr rfl
    · exact .inl rfl
  · have stopped : (execute transactions base overlay token).1 = .error .cancelled ↔
        stops 0 token (raises (base.through overlay.read) .empty transactions) = true := by
      rw [execute_eq]
      split <;> simp [*]
    rw [stopped, stops_start_iff, length_raises]
    simp only [raises_iff, exists_and_left]
  · exact fun place key => looksUp_iff

end Vm
end GroupedLedger
