import GroupedLedger.Grouping.Groupers
import GroupedLedger.Proofs.Classes
import Mathlib.Data.List.Zip

namespace GroupedLedger.Grouping

theorem getElem?_insert_new {κ : Type} [Ord κ] [Std.TransOrd κ] [Std.LawfulEqOrd κ]
    {known : Std.ExtTreeMap κ Nat} {key : κ} (new : known[key]? = none) (next : Nat) {other : κ}
    {number : Nat} :
    (known.insert key next)[other]? = some number ↔
      other = key ∧ number = next ∨ known[other]? = some number := by
  rw [Std.ExtTreeMap.getElem?_insert]
  by_cases he : key = other
  · subst he
    simp [new, eq_comm]
  · simp [he, Ne.symm he]

theorem getElem?_concat_eq_some_iff {α : Type} {items : List α} {last item : α} {place : Nat} :
    (items ++ [last])[place]? = some item ↔
      item = last ∧ place = items.length ∨ items[place]? = some item := by
  rw [List.getElem?_append]
  split
  · rename_i inside
    simp [Nat.ne_of_lt inside]
  · rename_i beyond
    rw [List.getElem?_singleton, List.getElem?_eq_none (Nat.le_of_not_lt beyond)]
    have atEnd : place - items.length = 0 ↔ place = items.length := by omega
    simp [atEnd, eq_comm, and_comm]

def classOf {α : Type} (labelled : List (Nat × α)) (label : Nat) : List α :=
  (labelled.filter fun entry => entry.1 == label).map Prod.snd

/-- The slots hold the items taken so far in classes, and know the place of each label's class. -/
structure Slots.Holds {α : Type} (labelled : List (Nat × α)) (slots : Slots α) : Prop where
  held : slots.toLists = (labelled.map Prod.fst).eraseDups.map (classOf labelled)
  slotOf : ∀ label slot : Nat,
    slots.slotOf[label]? = some slot ↔ (labelled.map Prod.fst).eraseDups[slot]? = some label

section Slots

variable {α β : Type} {slots : Slots α} {labelled : List (Nat × α)}

theorem classOf_append (labelled : List (Nat × α)) (label shared : Nat) (item : α) :
    classOf (labelled ++ [(label, item)]) shared =
      classOf labelled shared ++ if label = shared then [item] else [] := by
  simp only [classOf, List.filter_append, List.map_append]
  by_cases same : label = shared
  · simp [same]
  · simp [same]

theorem classOf_eq_nil {label : Nat} (fresh : label ∉ labelled.map Prod.fst) :
    classOf labelled label = [] := by
  rw [classOf, List.map_eq_nil_iff, List.filter_eq_nil_iff]
  intro entry mem same
  exact fresh (List.mem_map.mpr ⟨entry, mem, eq_of_beq same⟩)

theorem eraseDups_concat (labels : List Nat) (label : Nat) :
    (labels ++ [label]).eraseDups =
      if label ∈ labels then labels.eraseDups else labels.eraseDups ++ [label] := by
  rw [List.eraseDups_append]
  by_cases known : label ∈ labels
  · simp [List.removeAll, known]
  · simp [List.removeAll, known, List.eraseDups_cons]

namespace Slots

theorem holds_empty : (Slots.empty : Slots α).Holds [] := by
  refine ⟨rfl, fun label slot => ?_⟩
  simp [Slots.empty]

theorem toLists_modify (slots : Slots α) (slot : Nat) (item : α) :
    ({ slots with held := slots.held.modify slot (·.push item) } : Slots α).toLists =
      slots.toLists.modify slot (· ++ [item]) := by
  apply List.ext_getElem?
  intro place
  simp only [toLists, Array.toList_modify, List.getElem?_map, List.getElem?_modify]
  cases slots.held.toList[place]? with
  | none => rfl
  | some held => by_cases here : slot = place <;> simp [here]

/-- An item of a known label goes to the end of its class. -/
theorem Holds.put_known (h : slots.Holds labelled) {label slot : Nat}
    (known : slots.slotOf[label]? = some slot) (item : α) :
    Holds (labelled ++ [(label, item)])
      { slots with held := slots.held.modify slot (·.push item) } := by
  have here := (h.slotOf label slot).mp known
  have mem : label ∈ labelled.map Prod.fst := List.mem_eraseDups.mp (List.mem_of_getElem? here)
  have labels : ((labelled ++ [(label, item)]).map Prod.fst).eraseDups =
      (labelled.map Prod.fst).eraseDups := by
    rw [List.map_append, List.map_singleton, eraseDups_concat, if_pos mem]
  refine ⟨?_, fun other place => by rw [labels]; exact h.slotOf other place⟩
  rw [toLists_modify, labels, h.held]
  apply List.ext_getElem?
  intro place
  rw [List.getElem?_modify, List.getElem?_map, List.getElem?_map]
  cases there : (labelled.map Prod.fst).eraseDups[place]? with
  | none => rfl
  | some shared =>
    -- No label comes up twice among the classes, so only the label's own class grows.
    have same : slot = place ↔ label = shared := by
      constructor
      · rintro rfl
        exact Option.some.inj (here.symm.trans there)
      · rintro rfl
        have inside := (List.getElem?_eq_some_iff.mp here).1
        exact (List.getElem?_inj inside (nodup_eraseDups _)).mp (here.trans there.symm)
    simp only [Option.map_some, classOf_append, ← same]
    by_cases hp : slot = place <;> simp [hp]

theorem Holds.size (h : slots.Holds labelled) :
    slots.held.size = (labelled.map Prod.fst).eraseDups.length := by
  have length := congrArg List.length h.held
  rwa [toLists, List.length_map, List.length_map, Array.length_toList] at length

theorem Holds.fresh (h : slots.Holds labelled) {label : Nat}
    (unknown : slots.slotOf[label]? = none) : label ∉ labelled.map Prod.fst := by
  intro mem
  obtain ⟨slot, here⟩ := List.getElem?_of_mem (List.mem_eraseDups.mpr mem)
  rw [(h.slotOf label slot).mpr here] at unknown
  cases unknown

/-- An item of a new label is a class of its own behind the others. -/
theorem Holds.put_new (h : slots.Holds labelled) {label : Nat} (unknown : slots.slotOf[label]? = none)
    (item : α) :
    Holds (labelled ++ [(label, item)])
      ⟨slots.slotOf.insert label slots.held.size, slots.held.push #[item]⟩ := by
  have fresh := h.fresh unknown
  have labels : ((labelled ++ [(label, item)]).map Prod.fst).eraseDups =
      (labelled.map Prod.fst).eraseDups ++ [label] := by
    rw [List.map_append, List.map_singleton, eraseDups_concat, if_neg fresh]
  constructor
  · have others : ∀ shared ∈ (labelled.map Prod.fst).eraseDups,
        classOf (labelled ++ [(label, item)]) shared = classOf labelled shared := by
      intro shared mem
      have different : label ≠ shared := fun same => fresh (same ▸ List.mem_eraseDups.mp mem)
      rw [classOf_append, if_neg different, List.append_nil]
    have own : classOf (labelled ++ [(label, item)]) label = [item] := by
      rw [classOf_append, if_pos rfl, classOf_eq_nil fresh, List.nil_append]
    have before := h.held
    rw [toLists] at before
    rw [labels, List.map_append, List.map_congr_left others, List.map_singleton, own, ← before]
    simp [toLists]
  · intro other slot
    rw [labels, getElem?_insert_new unknown, getElem?_concat_eq_some_iff, h.slotOf, h.size]

theorem Holds.put (h : slots.Holds labelled) (label : Nat) (item : α) :
    (slots.put label item).Holds (labelled ++ [(label, item)]) := by
  unfold Slots.put
  cases found : slots.slotOf[label]? with
  | some slot => exact h.put_known found item
  | none => exact h.put_new found item

theorem Holds.foldl (h : slots.Holds labelled) (more : List (Nat × α)) :
    (more.foldl (fun slots entry => slots.put entry.1 entry.2) slots).Holds (labelled ++ more) := by
  induction more generalizing labelled slots with
  | nil => rwa [List.append_nil]
  | cons entry more ih =>
    have later := ih (h.put entry.1 entry.2)
    rwa [List.append_assoc] at later

end Slots

/-- Slots sort items into the classes of equal label. -/
theorem collect_eq (labelled : List (Nat × α)) :
    collect labelled = (gather Prod.fst labelled).map (List.map Prod.snd) := by
  rw [collect, (Slots.holds_empty.foldl labelled).held, gather, List.map_map]
  rfl

theorem collect_map (label : β → Nat) (name : β → α) (items : List β) :
    collect (items.map fun item => (label item, name item)) =
      (gather label items).map (List.map name) := by
  rw [collect_eq, gather_map, List.map_map]
  congr 1
  funext group
  exact List.map_map

end Slots

/-- The numbers given so far are below the next one, and no two addresses have the same. -/
structure Numbering (known : Std.ExtTreeMap Address Nat) : Prop where
  below : ∀ (address : Address) (number : Nat), known[address]? = some number → number < known.size
  injective : ∀ (a b : Address) (number : Nat), known[a]? = some number →
    known[b]? = some number → a = b

section Numbering

variable {known : Std.ExtTreeMap Address Nat} {address : Address}

theorem numbering_empty : Numbering ∅ := by
  constructor <;> simp

theorem Numbering.insert (h : Numbering known) (new : known[address]? = none) :
    Numbering (known.insert address known.size) := by
  have absent : address ∉ known := by simpa using new
  have size : (known.insert address known.size).size = known.size + 1 := by
    rw [Std.ExtTreeMap.size_insert, if_neg (by simpa using absent)]
  constructor
  · intro a number found
    rw [size]
    rcases (getElem?_insert_new new _).mp found with ⟨_, rfl⟩ | found
    · exact Nat.lt_succ_self _
    · exact Nat.lt_succ_of_lt (h.below a number found)
  · intro a b number foundA foundB
    rcases (getElem?_insert_new new _).mp foundA with ⟨rfl, rfl⟩ | oldA
    · rcases (getElem?_insert_new new _).mp foundB with ⟨rfl, _⟩ | oldB
      · rfl
      · exact absurd (h.below b _ oldB) (Nat.lt_irrefl _)
    · rcases (getElem?_insert_new new _).mp foundB with ⟨rfl, rfl⟩ | oldB
      · exact absurd (h.below a _ oldA) (Nat.lt_irrefl _)
      · exact h.injective a b number oldA oldB

/-- The next address has its number or gets the next one, and those after it go on from there. -/
theorem Numbering.next (h : Numbering known) (address : Address) (rest : List Address) :
    ∃ number after, numbered known (address :: rest) = number :: numbered after rest ∧
      Numbering after ∧ ∀ (a : Address) (n : Nat),
        after[a]? = some n ↔ a = address ∧ n = number ∨ known[a]? = some n := by
  cases found : known[address]? with
  | some number =>
    refine ⟨number, known, by rw [numbered, found], h, fun a n => (or_iff_right_of_imp ?_).symm⟩
    rintro ⟨rfl, rfl⟩
    exact found
  | none =>
    exact ⟨known.size, known.insert address known.size, by rw [numbered, found], h.insert found,
      fun a n => getElem?_insert_new found _⟩

theorem length_numbered (known : Std.ExtTreeMap Address Nat) (addresses : List Address) :
    (numbered known addresses).length = addresses.length := by
  induction addresses generalizing known with
  | nil => rfl
  | cons address rest ih =>
    rw [numbered]
    split <;> simp [ih]

/-- Of the addresses numbered so far and those that come up, two have the same number exactly if
they are equal. -/
theorem Numbering.eq_iff {addresses : List Address} (h : Numbering known) {a b : Address} {m n : Nat}
    (ha : known[a]? = some m ∨ (a, m) ∈ addresses.zip (numbered known addresses))
    (hb : known[b]? = some n ∨ (b, n) ∈ addresses.zip (numbered known addresses)) :
    m = n ↔ a = b := by
  -- What is numbered on the way joins the known addresses, so both may be old or still to come.
  induction addresses generalizing known with
  | nil =>
    have foundA := ha.resolve_right (by simp)
    have foundB := hb.resolve_right (by simp)
    constructor
    · rintro rfl
      exact h.injective a b m foundA foundB
    · rintro rfl
      exact Option.some.inj (foundA.symm.trans foundB)
  | cons address rest ih =>
    obtain ⟨number, after, step, numbering, entries⟩ := h.next address rest
    have later : ∀ {c : Address} {k : Nat}, known[c]? = some k ∨
        (c, k) ∈ (address :: rest).zip (numbered known (address :: rest)) →
          after[c]? = some k ∨ (c, k) ∈ rest.zip (numbered after rest) := by
      intro c k given
      rw [step, List.zip_cons_cons, List.mem_cons, Prod.mk.injEq] at given
      rcases given with old | now | toCome
      · exact .inl ((entries c k).mpr (.inr old))
      · exact .inl ((entries c k).mpr (.inl now))
      · exact .inr toCome
    exact ih numbering (later ha) (later hb)

end Numbering

/-- Sorting by the numbers of the senders is sorting by sender. -/
theorem collect_numbered {α : Type} (sender : α → Address) (items : List α) :
    collect ((numbered ∅ (items.map sender)).zip items) = gather sender items := by
  have numbers : ∀ entry ∈ (numbered ∅ (items.map sender)).zip items,
      (sender entry.2, entry.1) ∈ (items.map sender).zip (numbered ∅ (items.map sender)) := by
    intro entry mem
    rw [List.zip_map_left, ← List.zip_swap, List.map_map]
    exact List.mem_map_of_mem mem
  have length : (numbered ∅ (items.map sender)).length = items.length := by
    rw [length_numbered, List.length_map]
  rw [collect_eq, @gather_congr _ _ _ _ _ _ _ Prod.fst fun entry => sender entry.2, ← gather_map,
    List.map_snd_zip (Nat.le_of_eq length.symm)]
  intro one ho other hr
  exact numbering_empty.eq_iff (.inr (numbers one ho)) (.inr (numbers other hr))

end GroupedLedger.Grouping
