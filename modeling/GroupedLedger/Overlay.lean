import GroupedLedger.Effect

namespace GroupedLedger

inductive Pending where
  | changed (value : Value)
  | deleted
  deriving DecidableEq

/-- Pending changes and deletions. A key it knows has a pending value or a pending deletion, never
both. -/
structure Overlay where
  entries : KeyMap Pending
  deriving DecidableEq

namespace Overlay

def empty : Overlay := ⟨∅⟩

def set (overlay : Overlay) (key : Key) (value : Value) : Overlay :=
  ⟨overlay.entries.insert key (.changed value)⟩

def delete (overlay : Overlay) (key : Key) : Overlay := ⟨overlay.entries.insert key .deleted⟩

def read (overlay : Overlay) (key : Key) : Option Pending := overlay.entries[key]?

def changes (overlay : Overlay) : List (Key × Value) :=
  overlay.entries.toList.filterMap fun (key, pending) =>
    match pending with
    | .changed value => some (key, value)
    | .deleted => none

def deletes (overlay : Overlay) : List Key :=
  overlay.entries.toList.filterMap fun (key, pending) =>
    match pending with
    | .changed _ => none
    | .deleted => some key

def isEmpty (overlay : Overlay) : Bool := overlay.entries.isEmpty

/-- The entries of the second, and those of the first for the keys that the second leaves alone. -/
def extend (lower upper : Overlay) : Overlay := ⟨lower.entries ∪ upper.entries⟩

end Overlay

/-- What a transaction has itself done to a key so far. -/
def Effect.own? (effect : Effect) (key : Key) : Option Pending :=
  match effect.writes[key]? with
  | some value => some (.changed value)
  | none => if effect.deletes.contains key then some .deleted else none

/-- What an effect leaves pending. A key both written and deleted is pending for deletion. -/
def Effect.overlay (effect : Effect) : Overlay :=
  effect.deletes.foldl Overlay.delete ⟨effect.writes.map fun _ value => .changed value⟩

namespace Overlay

/-- Folds in one effect, unless its group was rejected. -/
def absorb (overlay : Overlay) (effect : Effect) : Overlay :=
  if effect.status = .conflict then overlay else overlay.extend effect.overlay

def ofEffects (effects : List Effect) : Overlay := effects.foldl absorb empty

/-- What is pending once `effects` come on top of `prior`. -/
def merge (prior : Option Overlay) (effects : List Effect) : Overlay :=
  (prior.getD empty).extend (ofEffects effects)

end Overlay

/-- Read access to a state. A state can be watched: looking up a key that it `trips` on raises the
cancellation signal of the execution that looks. -/
structure StateView where
  get? : Key → Option Value
  trips : Key → Bool := fun _ => false

/-- A state as seen through a layer of pending entries. Only a look-up that the layer does not
answer reaches what lies below. -/
def StateView.through (base : StateView) (layer : Key → Option Pending) : StateView where
  get? key :=
    match layer key with
    | some (.changed value) => some value
    | some .deleted => none
    | none => base.get? key
  trips key := (layer key).isNone && base.trips key

structure Snapshot where
  entries : KeyMap Value
  deriving DecidableEq

namespace Snapshot

def empty : Snapshot := ⟨∅⟩

def get? (snapshot : Snapshot) (key : Key) : Option Value := snapshot.entries[key]?

def insert (snapshot : Snapshot) (key : Key) (value : Value) : Snapshot :=
  ⟨snapshot.entries.insert key value⟩

def size (snapshot : Snapshot) : Nat := snapshot.entries.size

def commit (snapshot : Snapshot) (key : Key) : Pending → Snapshot
  | .changed value => ⟨snapshot.entries.insert key value⟩
  | .deleted => ⟨snapshot.entries.erase key⟩

def apply (snapshot : Snapshot) (overlay : Overlay) : Snapshot :=
  overlay.entries.foldl commit snapshot

def view (snapshot : Snapshot) : StateView where
  get? := snapshot.get?

/-- Read access that trips on the given keys. -/
def watched (snapshot : Snapshot) (keys : List Key) : StateView where
  get? := snapshot.get?
  trips key := keys.contains key

end Snapshot
end GroupedLedger
