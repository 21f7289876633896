import GroupedLedger.Contract.Call
import GroupedLedger.Grouping.DisjointSets
import GroupedLedger.Partition

namespace GroupedLedger

/-- Where a transaction belongs. A grouped one comes with the keys that tie it to others. -/
inductive Route where
  | serial
  | unroutable
  | grouped (keys : List Key)
  deriving DecidableEq

/-- Routes a transaction. The sender's balance is among the keys, so all transactions of a sender
are tied together. -/
def Route.of (tx : Transaction) : Route :=
  match Call.decode tx with
  | .error (.unknownContract _) => .unroutable
  | .error _ => .serial
  | .ok call =>
    if call.isSystem then .serial
    else .grouped (call.resources tx.sender ++ [Key.balance tx.sender])

def Route.keys? : Route → Option (List Key)
  | .grouped keys => some keys
  | _ => none

namespace Grouping

/-- Items sorted into slots by label: the slot of each label seen so far, and what each slot holds.
Slots are numbered in the order in which their labels came up. -/
structure Slots (α : Type) where
  slotOf : Std.ExtTreeMap Nat Nat
  held : Array (Array α)

def Slots.empty {α : Type} : Slots α := ⟨∅, #[]⟩

/-- Puts an item into the slot of its label, which is a new slot at the end if there is none yet. -/
def Slots.put {α : Type} (slots : Slots α) (label : Nat) (item : α) : Slots α :=
  match slots.slotOf[label]? with
  | some slot => { slots with held := slots.held.modify slot (·.push item) }
  | none => ⟨slots.slotOf.insert label slots.held.size, slots.held.push #[item]⟩

def Slots.toLists {α : Type} (slots : Slots α) : List (List α) := slots.held.toList.map Array.toList

def collect {α : Type} (labelled : List (Nat × α)) : List (List α) :=
  (labelled.foldl (fun slots entry => slots.put entry.1 entry.2) Slots.empty).toLists

/-- The number of each address. An address is numbered when it first comes up, and `known` are the
numbers given so far. -/
def numbered (known : Std.ExtTreeMap Address Nat) : List Address → List Nat
  | [] => []
  | address :: rest =>
    match known[address]? with
    | some number => number :: numbered known rest
    | none => known.size :: numbered (known.insert address known.size) rest

/-- The state of tying transactions together: the sets of places tied so far, and the first place
that named each key. -/
structure Ties where
  sets : DisjointSets
  first : KeyMap Nat

def Ties.tie (place : Nat) (ties : Ties) (key : Key) : Ties :=
  match ties.first[key]? with
  | some other => { ties with sets := ties.sets.unite place other }
  | none => { ties with first := ties.first.insert key place }

/-- Ties a place to every place before it that shares one of its keys. -/
def Ties.tieAll (ties : Ties) (keys : List Key) (place : Nat) : Ties :=
  keys.foldl (Ties.tie place) ties

/-- The sets of places that share keys, directly or through others. -/
def tied (keys : List (List Key)) : DisjointSets :=
  let start : Ties := ⟨.singletons keys.length, ∅⟩
  (keys.zipIdx.foldl (fun ties entry => ties.tieAll entry.1 entry.2) start).sets

def partition (groups : List (Transaction × List Key) → List (List Transaction))
    (transactions : List Transaction) : Partition :=
  let routed := transactions.map fun tx => (tx, Route.of tx)
  { serial := (routed.filter fun entry => entry.2 == .serial).map Prod.fst
    unroutable := (routed.filter fun entry => entry.2 == .unroutable).map Prod.fst
    groups := groups (routed.filterMap fun entry => entry.2.keys?.map (entry.1, ·)) }

end Grouping

/-- Groups token calls that are linked by a chain of shared balance keys. -/
def Grouper.byResource : Grouper := fun _ =>
  Grouping.partition fun calls =>
    let roots := (Grouping.tied (calls.map Prod.snd)).roots (List.range calls.length)
    Grouping.collect (roots.zip (calls.map Prod.fst))

/-- Groups token calls by their sender. Recipients that are shared are left to the resolution. -/
def Grouper.bySender : Grouper := fun _ =>
  Grouping.partition fun calls =>
    let senders := Grouping.numbered ∅ (calls.map fun call => call.1.sender)
    Grouping.collect (senders.zip (calls.map Prod.fst))

end GroupedLedger
