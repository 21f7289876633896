import GroupedLedger.Proofs.Identities
import GroupedLedger.Proofs.Streams

namespace GroupedLedger

namespace Draw

variable {α β : Type} {words : Nat → UInt32} {place last : Nat}

@[simp] theorem pure_apply (result : α) :
    (pure result : Draw α) words place = some (result, place) := rfl

theorem bind_eq_some_iff {draw : Draw α} {rest : α → Draw β} {result : β} :
    (draw >>= rest) words place = some (result, last) ↔
      ∃ drawn between, draw words place = some (drawn, between) ∧
        rest drawn words between = some (result, last) := by
  change ((draw words place).bind fun found => rest found.1 words found.2) = _ ↔ _
  rw [Option.bind_eq_some_iff]
  simp

theorem bind_apply {draw : Draw α} {drawn : α} {between : Nat}
    (first : draw words place = some (drawn, between)) (rest : α → Draw β) :
    (draw >>= rest) words place = rest drawn words between := by
  change ((draw words place).bind fun found => rest found.1 words found.2) = _
  rw [first, Option.bind_some]

theorem retry_apply {draw : Draw (Option α)} {result : α} {last : Nat}
    (right : draw words place = some (some result, last)) :
    retry draw words place = some (result, last) := by
  rw [retry, bind_apply right]
  rfl

theorem word64_apply {low high : UInt32} (hl : words place = low) (hh : words (place + 1) = high) :
    word64 words place = some (low.toUInt64 ||| (high.toUInt64 <<< 32), place + 2) := by
  subst hl hh
  rfl

theorem unit_zero (hl : words place = 0) (hh : words (place + 1) = 0) :
    unit words place = some (0.0, place + 2) := by
  rw [unit, bind_apply (word64_apply hl hh)]
  rfl

theorem below64_apply {count chosen : Nat} {low high : UInt32} (hl : words place = low)
    (hh : words (place + 1) = high)
    (right : choice? 64 count (low.toUInt64 ||| (high.toUInt64 <<< 32)).toNat = some chosen) :
    below64 count words place = some (chosen, place + 2) :=
  retry_apply (by rw [bind_apply (word64_apply hl hh), right, pure_apply])

end Draw

namespace Workload

theorem length_drawDrafts {config : WorkloadConfig} {accounts : Array Address} {stray : Address}
    {count : Nat} {words : Nat → UInt32} {place last : Nat} {drafts : List Draft}
    (drawn : drawDrafts config accounts stray count words place = some (drafts, last)) :
    drafts.length = count := by
  induction count generalizing place drafts with
  | zero =>
    cases drawn
    rfl
  | succ count ih =>
    simp only [drawDrafts, Draw.bind_eq_some_iff] at drawn
    obtain ⟨draft, between, _, rest, after, later, ended⟩ := drawn
    cases ended
    rw [List.length_cons, ih later]

def sentBy (sender : Address) (transactions : List Transaction) : Nat :=
  transactions.countP fun tx => tx.sender == sender

theorem numbered_nil (nonces : Std.ExtTreeMap Address UInt64) : numbered nonces [] = [] := rfl

theorem numbered_cons (nonces : Std.ExtTreeMap Address UInt64) (draft : Draft) (rest : List Draft) :
    numbered nonces (draft :: rest) =
      { draft.call.toTransaction draft.sender (nonces.getD draft.sender 0) with
        target := draft.target } ::
      numbered (nonces.insert draft.sender (nonces.getD draft.sender 0 + 1)) rest := rfl

theorem length_numbered (nonces : Std.ExtTreeMap Address UInt64) (drafts : List Draft) :
    (numbered nonces drafts).length = drafts.length := by
  induction drafts generalizing nonces with
  | nil => rfl
  | cons draft rest ih => rw [numbered_cons, List.length_cons, ih, List.length_cons]

/-- A nonce is the sender's next one at the start and counts on from there. -/
theorem nonce_numbered {nonces : Std.ExtTreeMap Address UInt64} {drafts : List Draft} {place : Nat}
    {tx : Transaction} (here : (numbered nonces drafts)[place]? = some tx) :
    tx.nonce = nonces.getD tx.sender 0 +
      UInt64.ofNat (sentBy tx.sender ((numbered nonces drafts).take place)) := by
  induction drafts generalizing nonces place with
  | nil => simp [numbered_nil] at here
  | cons draft rest ih =>
    rw [numbered_cons] at here ⊢
    cases place with
    | zero =>
      simp only [List.getElem?_cons_zero, Option.some.injEq] at here
      subst here
      simp [sentBy, Call.toTransaction]
    | succ place =>
      have later := ih (by simpa using here)
      rw [Std.ExtTreeMap.getD_insert] at later
      rw [later, List.take_succ_cons, sentBy, sentBy, List.countP_cons]
      by_cases same : draft.sender = tx.sender
      · simp only [same, Std.compare_self, if_true, beq_self_eq_true, Call.toTransaction,
          UInt64.ofNat_add]
        rw [UInt64.add_assoc, UInt64.add_comm 1]
        rfl
      · simp [same, Call.toTransaction]

/-- The parts of a list start one full part after the other. -/
theorem getElem?_chunks {α : Type} (size : Nat) (items : List α) (index : Nat) :
    (chunks size items)[index]? = if index * (size + 1) < items.length
      then some ((items.drop (index * (size + 1))).take (size + 1)) else none := by
  fun_induction chunks size items generalizing index with
  | case1 => simp
  | case2 item rest ih =>
    cases index with
    | zero => simp
    | succ index =>
      have start : (index + 1) * (size + 1) = size + index * (size + 1) + 1 := by
        rw [Nat.succ_mul]
        omega
      rw [List.getElem?_cons_succ, ih, start, List.drop_succ_cons, List.drop_drop,
        List.length_drop, List.length_cons]
      congr 1
      simp only [eq_iff_iff]
      omega

theorem length_of_chunk {α : Type} {size : Nat} {items part : List α} {index : Nat}
    (here : (chunks size items)[index]? = some part) :
    index * (size + 1) < items.length ∧
      part.length = min (size + 1) (items.length - index * (size + 1)) := by
  rw [getElem?_chunks, Option.ite_none_right_eq_some] at here
  obtain ⟨inside, same⟩ := here
  rw [← Option.some.inj same, List.length_take, List.length_drop]
  exact ⟨inside, rfl⟩

theorem flatten_chunks {α : Type} (size : Nat) (items : List α) :
    (chunks size items).flatten = items := by
  fun_induction chunks size items with
  | case1 => rfl
  | case2 item rest ih => rw [List.flatten_cons, ih, List.cons_append, List.take_append_drop]

theorem linked_cons (parent : Digest) (index : Nat) (part : List Transaction)
    (parts : List (List Transaction)) :
    linked parent index (part :: parts) =
      ⟨⟨UInt64.ofNat (index + 1), parent⟩, part⟩ ::
        linked (keccak256 (Bytes.ofWord (UInt64.ofNat (index + 1)))) (index + 1) parts := by
  rw [UInt64.ofNat_add]
  rfl

theorem map_transactions_linked (parent : Digest) (index : Nat) (parts : List (List Transaction)) :
    (linked parent index parts).map Block.transactions = parts := by
  induction parts generalizing parent index with
  | nil => rfl
  | cons part parts ih => rw [linked_cons, List.map_cons, ih]

/-- A block is one higher than the one before it. The first names the parent that is carried in, and
each later one the digest of the height before its own. -/
theorem getElem?_linked (parent : Digest) (index : Nat) (parts : List (List Transaction))
    (place : Nat) :
    (linked parent index parts)[place]? = parts[place]?.map fun part =>
      ⟨⟨UInt64.ofNat (index + place + 1),
        if place = 0 then parent else keccak256 (Bytes.ofWord (UInt64.ofNat (index + place)))⟩,
        part⟩ := by
  induction parts generalizing parent index place with
  | nil => rfl
  | cons part parts ih =>
    rw [linked_cons]
    cases place with
    | zero => rfl
    | succ place =>
      have shift : index + 1 + place = index + (place + 1) := by omega
      rw [List.getElem?_cons_succ, List.getElem?_cons_succ, ih, shift]
      -- The parent carried on from this block is the digest of its height.
      cases place <;> rfl

theorem stream_ofDrafts (accounts : List Address) (perBlock : Nat) (drafts : List Draft) :
    (ofDrafts accounts perBlock drafts).stream = numbered ∅ drafts := by
  rw [stream, List.flatMap_def, ofDrafts, map_transactions_linked, flatten_chunks]

/-- A block starts where the full blocks before it end, and is full or takes all that is left. -/
theorem block_ofDrafts {accounts : List Address} {perBlock : Nat} {drafts : List Draft} {index : Nat}
    {block : Block} (here : (ofDrafts accounts perBlock drafts).blocks[index]? = some block) :
    index * max perBlock 1 < drafts.length ∧
      block.transactions.length =
        min (max perBlock 1) (drafts.length - index * max perBlock 1) := by
  rw [ofDrafts, getElem?_linked, Option.map_eq_some_iff] at here
  obtain ⟨part, found, rfl⟩ := here
  have cut := length_of_chunk found
  rwa [length_numbered, show perBlock - 1 + 1 = max perBlock 1 by omega] at cut

theorem header_ofDrafts {accounts : List Address} {perBlock : Nat} {drafts : List Draft}
    {index : Nat} {block : Block} (few : drafts.length < UInt64.size)
    (here : (ofDrafts accounts perBlock drafts).blocks[index]? = some block) :
    block.header.height.toNat = index + 1 ∧
      block.header.parent =
        if index = 0 then Octets.filled 32 0 else keccak256 (Bytes.bigEndian 8 index) := by
  have early : index < drafts.length :=
    (Nat.le_mul_of_pos_right index (by omega)).trans_lt (block_ofDrafts here).1
  rw [ofDrafts, getElem?_linked, Option.map_eq_some_iff] at here
  obtain ⟨part, _, rfl⟩ := here
  simp only [Nat.zero_add, Bytes.ofWord]
  rw [UInt64.toNat_ofNat_of_lt' (by omega), UInt64.toNat_ofNat_of_lt' (by omega)]
  exact ⟨rfl, rfl⟩

end Workload

/-- Every nonce is the number of transactions of the same sender before it. -/
def Counting (stream : List Transaction) : Prop :=
  ∀ place tx, stream[place]? = some tx →
    tx.nonce.toNat = Workload.sentBy tx.sender (stream.take place)

/-- A transaction raises the count for all later ones of its sender. -/
theorem Counting.nodup {stream : List Transaction} (h : Counting stream) :
    (stream.map fun tx => (tx.sender, tx.nonce)).Nodup := by
  rw [List.Nodup, List.pairwise_map, List.pairwise_iff_getElem]
  intro first second hf hs before same
  obtain ⟨sender, nonce⟩ := Prod.mk.inj same
  have earlier := h first _ (List.getElem?_eq_getElem hf)
  have later := h second _ (List.getElem?_eq_getElem hs)
  rw [← nonce, ← sender, earlier] at later
  have prefixes : (stream.take (first + 1)).Sublist (stream.take second) :=
    (List.take_sublist_take_left (by omega))
  have counted : Workload.sentBy stream[first].sender (stream.take (first + 1)) =
      Workload.sentBy stream[first].sender (stream.take first) + 1 := by
    rw [List.take_succ_eq_append_getElem hf, Workload.sentBy, List.countP_append]
    simp [Workload.sentBy]
  have more : Workload.sentBy stream[first].sender (stream.take (first + 1)) ≤
      Workload.sentBy stream[first].sender (stream.take second) := prefixes.countP_le
  omega

/-- The sender can be read off the front of the digested bytes, and the nonce off their end. -/
theorem Transaction.ends_of_preimage {tx other : Transaction}
    (same : tx.preimage = other.preimage) : tx.sender = other.sender ∧ tx.nonce = other.nonce := by
  unfold preimage at same
  obtain ⟨sender, rest⟩ := List.append_inj same (by simp)
  simp only [← List.append_assoc] at rest
  obtain ⟨_, nonce⟩ := List.append_inj' rest (by simp)
  exact ⟨Octets.ext sender, Bytes.ofWord_inj.mp nonce⟩

namespace Workload

/-- What every workload of a configuration looks like, whatever was drawn for it. -/
structure Shaped (config : WorkloadConfig) (workload : Workload) : Prop where
  counted : workload.transactionCount = config.transactions
  counting : Counting workload.stream
  numbered : (workload.stream.map fun tx => (tx.sender, tx.nonce)).Nodup
  distinct : (workload.stream.map Transaction.preimage).Nodup
  nonempty : ∀ block ∈ workload.blocks, block.transactions ≠ []
  full : ∀ index block, workload.blocks[index]? = some block →
    block.transactions.length ≤ max config.perBlock 1 ∧
    (index + 1 < workload.blocks.length → block.transactions.length = max config.perBlock 1)
  height : ∀ index block, workload.blocks[index]? = some block →
    block.header.height.toNat = index + 1
  parent : ∀ index block, workload.blocks[index]? = some block →
    block.header.parent =
      if index = 0 then Octets.filled 32 0 else keccak256 (Bytes.bigEndian 8 index)

theorem counting_numbered {drafts : List Draft} (few : drafts.length < UInt64.size) :
    Counting (Workload.numbered ∅ drafts) := by
  intro place tx here
  rw [nonce_numbered here, Std.ExtTreeMap.getD_empty, UInt64.zero_add]
  have most : sentBy tx.sender ((Workload.numbered ∅ drafts).take place) ≤ drafts.length := by
    refine List.countP_le_length.trans ?_
    rw [List.length_take, length_numbered]
    omega
  exact UInt64.toNat_ofNat_of_lt' (by omega)

/-- Whatever was drafted, the workload has its shape. -/
theorem shaped_ofDrafts {config : WorkloadConfig} {drafts : List Draft}
    (drawn : drafts.length = config.transactions) (few : config.transactions < UInt64.size)
    (accounts : List Address) : Shaped config (ofDrafts accounts config.perBlock drafts) := by
  have listed := stream_ofDrafts accounts config.perBlock drafts
  have counting : Counting (ofDrafts accounts config.perBlock drafts).stream := by
    rw [listed]
    exact counting_numbered (drawn ▸ few)
  refine {
    counted := ?_
    counting
    numbered := counting.nodup
    distinct := ?_
    nonempty := ?_
    full := ?_
    height := ?_
    parent := ?_ }
  · exact (congrArg List.length listed).trans ((length_numbered ∅ drafts).trans drawn)
  · rw [List.Nodup, List.pairwise_map]
    refine (List.pairwise_map.mp counting.nodup).imp fun {tx other} apart same => apart ?_
    obtain ⟨sender, nonce⟩ := Transaction.ends_of_preimage same
    exact Prod.ext sender nonce
  · intro block mem
    obtain ⟨index, here⟩ := List.getElem?_of_mem mem
    obtain ⟨inside, filled⟩ := block_ofDrafts here
    rw [← List.length_pos_iff, filled]
    omega
  · intro index block here
    obtain ⟨_, filled⟩ := block_ofDrafts here
    refine ⟨by omega, fun later => ?_⟩
    -- The next block starts inside the stream, so this one takes as much as it may.
    obtain ⟨inside, _⟩ := block_ofDrafts (List.getElem?_eq_getElem later)
    rw [Nat.succ_mul] at inside
    omega
  · exact fun index block here => (header_ofDrafts (drawn ▸ few) here).1
  · exact fun index block here => (header_ofDrafts (drawn ▸ few) here).2

theorem exists_drafts {config : WorkloadConfig} {words : Nat → UInt32} {workload : Workload}
    (generated : generateFrom config words = some workload) :
    config.transactions < UInt64.size ∧
    ∃ drafts : List Draft, drafts.length = config.transactions ∧
      workload = ofDrafts (accountsOf config) config.perBlock drafts := by
  simp only [generateFrom, Option.ite_none_right_eq_some, Option.bind_eq_bind,
    Option.bind_eq_some_iff] at generated
  obtain ⟨room, ⟨drafts, last⟩, drawn, made⟩ := generated
  cases made
  have listed := (of_decide_eq_true room).2
  rw [capacity] at listed
  exact ⟨by rw [UInt64.size]; omega, drafts, length_drawDrafts drawn, rfl⟩

/-- Whatever words the choices of a workload are drawn from, it has as many transactions as it was
asked for. The nonce of each is the number of transactions of the same sender before it, over all
blocks, so no two have the same sender and nonce or are digested from the same bytes. No block is
empty and only the last may not be full. The blocks have the heights from 1 on, and each but the
first names the digest of the height before its own. -/
theorem generated_shaped {config : WorkloadConfig} {words : Nat → UInt32} {workload : Workload}
    (generated : generateFrom config words = some workload) : workload.Shaped config := by
  obtain ⟨few, drafts, counted, rfl⟩ := exists_drafts generated
  exact shaped_ofDrafts counted few _

end Workload

/-- Words that have the first account send every call. -/
def Sample.words (place : Nat) : UInt32 := if place % 8 = 5 then 0x80000000 else 0

def Sample.rounds : WorkloadConfig :=
  { accounts := 2, transactions := 3, perBlock := 2, system := 1.0 }

namespace Workload

open Sample

/-- A draft takes eight words. -/
theorem drawDraft_rounds {accounts : Array Address} (stray : Address) (two : accounts.size = 2)
    {place : Nat} (start : place % 8 = 0) :
    drawDraft rounds accounts stray words place =
      some (⟨accounts.getD 0 stray, consensusContract, .nextRound⟩, place + 8) := by
  have low : ∀ offset, offset % 8 ≠ 5 → words (place + offset) = 0 :=
    fun offset other => if_neg (by omega)
  have high : words (place + 5) = 0x80000000 := if_pos (by omega)
  have cold : Draw.unit words place = some (0.0, place + 2) :=
    Draw.unit_zero (low 0 (by decide)) (low 1 (by decide))
  have sender : Draw.below64 2 words (place + 2) = some (0, place + 4) :=
    Draw.below64_apply (low 2 (by decide)) (low 3 (by decide)) (by decide)
  have other : Draw.below64 2 words (place + 4) = some (1, place + 6) :=
    Draw.below64_apply (low 4 (by decide)) high (by decide)
  have roll : Draw.unit words (place + 6) = some (0.0, place + 8) :=
    Draw.unit_zero (low 6 (by decide)) (low 7 (by decide))
  have pair : drawPair 2 words (place + 2) = some ((0, 1), place + 6) := by
    have unlike : Draw.retry (do
        let other ← Draw.below64 2
        return if other = 0 then none else some other) words (place + 4) = some (1, place + 6) :=
      Draw.retry_apply (Draw.bind_apply other _)
    rw [drawPair, Draw.bind_apply sender, Draw.bind_apply unlike]
    rfl
  rw [drawDraft, Draw.bind_apply cold, if_neg (by decide), two, Draw.bind_apply pair]
  dsimp only
  rw [Draw.bind_apply roll, if_pos (by decide)]
  rfl

theorem exists_drafts_rounds {accounts : Array Address} (stray : Address)
    (two : accounts.size = 2) (count : Nat) {place : Nat} (start : place % 8 = 0) :
    ∃ drawn, drawDrafts rounds accounts stray count words place = some drawn := by
  induction count generalizing place with
  | zero => exact ⟨_, rfl⟩
  | succ count ih =>
    obtain ⟨drawn, rest⟩ := @ih (place + 8) (by omega)
    rw [drawDrafts, Draw.bind_apply (drawDraft_rounds stray two start), Draw.bind_apply rest]
    exact ⟨_, rfl⟩

theorem sample_generated_shaped : ∃ workload, generateFrom rounds words = some workload ∧
    workload.Shaped rounds := by
  have two : (accountsOf rounds).toArray.size = 2 := by simp [accountsOf, rounds]
  obtain ⟨drawn, drafts⟩ := exists_drafts_rounds (Address.ofSeed (rounds.seed - 1)) two
    rounds.transactions (Nat.zero_mod 8)
  have generated : ∃ workload, generateFrom rounds words = some workload := by
    rw [generateFrom, if_pos (by decide)]
    dsimp only
    rw [drafts]
    exact ⟨_, rfl⟩
  obtain ⟨workload, generated⟩ := generated
  exact ⟨_, generated, generated_shaped generated⟩

end Workload

end GroupedLedger
