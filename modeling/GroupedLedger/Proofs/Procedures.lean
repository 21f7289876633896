import GroupedLedger.Contract.Vm
import GroupedLedger.Proofs.Effects

namespace GroupedLedger

namespace Procedure

variable {α β : Type} {reads changes : Key → Prop}

/-- Every read is of a key of the first kind and every write or delete of one of the second. -/
def Within (reads changes : Key → Prop) : Procedure α → Prop
  | .done _ => True
  | .fail _ => True
  | .read key next => reads key ∧ ∀ value, (next value).Within reads changes
  | .write key _ next => changes key ∧ next.Within reads changes
  | .delete key next => changes key ∧ next.Within reads changes

theorem within_any (p : Procedure α) : p.Within (fun _ => True) fun _ => True := by
  induction p with
  | done _ => trivial
  | fail _ => trivial
  | read _ _ ih => exact ⟨trivial, ih⟩
  | write _ _ _ ih => exact ⟨trivial, ih⟩
  | delete _ _ ih => exact ⟨trivial, ih⟩

theorem Within.mono {p : Procedure α} {mayRead mayChange : Key → Prop}
    (within : p.Within reads changes) (read : ∀ key, reads key → mayRead key)
    (change : ∀ key, changes key → mayChange key) : p.Within mayRead mayChange := by
  induction p with
  | done _ => trivial
  | fail _ => trivial
  | read key _ ih => exact ⟨read key within.1, fun value => ih value (within.2 value)⟩
  | write key _ _ ih => exact ⟨change key within.1, ih within.2⟩
  | delete key _ ih => exact ⟨change key within.1, ih within.2⟩

theorem Within.bind {p : Procedure α} {next : α → Procedure β} (first : p.Within reads changes)
    (rest : ∀ result, (next result).Within reads changes) : (p >>= next).Within reads changes := by
  induction p with
  | done result => exact rest result
  | fail _ => trivial
  | read _ _ ih => exact ⟨first.1, fun value => ih value (first.2 value)⟩
  | write _ _ _ ih => exact ⟨first.1, ih first.2⟩
  | delete _ _ ih => exact ⟨first.1, ih first.2⟩

theorem within_readWord {key : Key} (read : reads key) : (readWord key).Within reads changes := by
  refine ⟨read, fun value => ?_⟩
  cases value with
  | none => trivial
  | some value =>
    simp only
    split <;> trivial

theorem within_writeWord {key : Key} {word : UInt64} (change : changes key) :
    (writeWord key word).Within reads changes := ⟨change, trivial⟩

theorem within_remove {key : Key} (change : changes key) : (remove key).Within reads changes :=
  ⟨change, trivial⟩

theorem within_require {condition : Bool} {failure : CallFailure} :
    (require condition failure).Within reads changes := by
  cases condition <;> trivial

theorem within_add {a b : UInt64} : (add a b).Within reads changes := by
  unfold add
  split <;> trivial

/-- What each access keeps of an effect, a run keeps. -/
theorem Within.run_keeps {p : Procedure α} (within : p.Within reads changes)
    {P : Effect → Prop} (read : ∀ effect key, reads key → P effect → P (effect.read key))
    (write : ∀ effect key value, changes key → P effect → P (effect.write key value))
    (delete : ∀ effect key, changes key → P effect → P (effect.delete key))
    (state : StateView) {frame : Frame} (start : P frame.effect) :
    P (p.run state frame).2.effect := by
  induction p generalizing frame with
  | done _ => exact start
  | fail _ => exact start
  | read key next ih => exact ih _ (within.2 _) (read _ key within.1 start)
  | write key value next ih => exact ih within.2 (write _ key value within.1 start)
  | delete key next ih => exact ih within.2 (delete _ key within.1 start)

theorem Within.confined {p : Procedure α}
    (within : p.Within reads changes) (state : StateView) (frame : Frame)
    (start : frame.effect.Confined reads changes) :
    (p.run state frame).2.effect.Confined reads changes :=
  within.run_keeps (fun _ _ may h => h.read may)
    (fun _ _ _ may h => h.change may rfl fun _ => Effect.mem_changedKeys_write)
    (fun _ _ may h => h.change may rfl fun _ => Effect.mem_changedKeys_delete) state start

theorem mem_accesses_run {p : Procedure α} {state : StateView} {frame : Frame} {key : Key}
    (touched : key ∈ frame.effect.accesses) : key ∈ (p.run state frame).2.effect.accesses :=
  p.within_any.run_keeps (P := fun effect => key ∈ effect.accesses)
    (fun _ _ _ h => Effect.mem_accesses_read.mpr (.inr h))
    (fun _ _ _ _ h => Effect.mem_accesses_write.mpr (.inr h))
    (fun _ _ _ h => Effect.mem_accesses_delete.mpr (.inr h)) state touched

theorem mem_accesses_readWord_bind {key : Key} {next : UInt64 → Procedure α}
    {state : StateView} {frame : Frame} :
    key ∈ ((readWord key >>= next).run state frame).2.effect.accesses := by
  have noted : key ∈ (frame.read state key).2.effect.accesses :=
    Effect.mem_accesses_read.mpr (.inl rfl)
  change key ∈ (run state _ (frame.read state key).2).2.effect.accesses
  exact mem_accesses_run noted

/-- A run sees nothing of a state but the keys it notes as touched. -/
theorem run_congr (p : Procedure α) {state other : StateView} {frame frame' : Frame}
    (same : frame'.effect = frame.effect)
    (agree : ∀ key ∈ (p.run state frame).2.effect.accesses, other.get? key = state.get? key) :
    (p.run other frame').1 = (p.run state frame).1 ∧
      (p.run other frame').2.effect = (p.run state frame).2.effect := by
  induction p generalizing frame frame' with
  | done _ => exact ⟨rfl, same⟩
  | fail _ => exact ⟨rfl, same⟩
  | read key next ih =>
    have touched : key ∈ (frame.read state key).2.effect.accesses :=
      Effect.mem_accesses_read.mpr (.inl rfl)
    have below := agree key (mem_accesses_run (p := next _) touched)
    have found : (frame'.read other key).1 = (frame.read state key).1 := by
      simp only [Frame.read, StateView.through, same, below]
    simp only [run, found] at agree ⊢
    exact ih _ (congrArg (Effect.read · key) same) agree
  | write key value next ih => exact ih (congrArg (Effect.write · key value) same) agree
  | delete key next ih => exact ih (congrArg (Effect.delete · key) same) agree

/-- A run looks up no key that it does not note as touched, so it trips on nothing if the state
trips on none of these. -/
theorem run_untripped (p : Procedure α) {state : StateView} {frame : Frame}
    (calm : ∀ key ∈ (p.run state frame).2.effect.accesses, state.trips key = false)
    (untripped : frame.tripped = false) : (p.run state frame).2.tripped = false := by
  induction p generalizing frame with
  | done _ => exact untripped
  | fail _ => exact untripped
  | read key next ih =>
    have touched : key ∈ (frame.read state key).2.effect.accesses :=
      Effect.mem_accesses_read.mpr (.inl rfl)
    have silent := calm key (mem_accesses_run (p := next _) touched)
    apply ih _ calm
    simp [StateView.through, untripped, silent]
  | write key value next ih => exact ih calm untripped
  | delete key next ih => exact ih calm untripped

end Procedure
end GroupedLedger
