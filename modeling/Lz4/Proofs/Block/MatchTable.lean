import Lz4.Block.MatchTable
import Lz4.Proofs.Bytes.Content

/-!
# The wide table over a sliding buffer

A wide table is asked to exchange positions of a buffer whose front is dropped now and then. What it
was asked so far is a list of requests, the newest first. It determines for every slot the latest
position that was put there, counted from the first byte that there ever was
(`Lz4.Block.WideTable.latest`), and how many bytes are gone from the front since then
(`Lz4.Block.WideTable.total`).

The table does not store these numbers: from time to time it takes what was dropped so far off
everything it holds, and counts from there (`Lz4.Block.WideTable.Tracks`). Its answers do not show
it. Whatever was asked before, an answer is the latest position in the slot, counted from where the
buffer starts now, or its start if the position is gone; and no number outgrows its 32 bits
(`Lz4.Block.WideTable.exchange_eq_latest_sub_total`).
-/

namespace Lz4.Block.WideTable

/-- What can be asked of a table. -/
inductive Request where
  | exchange (data : Bytes) (pos : Nat)
  | drop (count : Nat)
  deriving Repr, DecidableEq

/-- A position is one of a buffer that the table can be used with, and no more bytes are dropped
than such a buffer has. -/
def Request.Allowed : Request → Prop
  | .exchange data pos => pos ≤ data.size ∧ data.size ≤ MatchTable.sizeLimit WideTable
  | .drop count => count ≤ MatchTable.sizeLimit WideTable

/-- The table after what was asked of it, the newest request first. -/
def after : List Request → WideTable
  | [] => empty
  | .exchange data pos :: earlier => ((after earlier).exchange data pos).2
  | .drop count :: earlier => (after earlier).drop count

/-- How many bytes were dropped. -/
def total : List Request → Nat
  | [] => 0
  | .exchange _ _ :: earlier => total earlier
  | .drop count :: earlier => total earlier + count

/-- The latest position in a slot, counted from the first byte that there ever was; zero if there is
none. -/
def latest (slot : Nat) : List Request → Nat
  | [] => 0
  | .exchange data pos :: earlier =>
    if WideTable.slot data pos = slot then pos + total earlier else latest slot earlier
  | .drop _ :: earlier => latest slot earlier

theorem slot_lt (data : Bytes) (pos : Nat) : slot data pos < slotCount := by
  unfold slot
  split
  · rw [UInt64.toNat_shiftRight, Nat.shiftRight_eq_div_pow]
    apply Nat.div_lt_of_lt_mul
    exact UInt64.toNat_lt _
  · decide

theorem slot_of_short {data : Bytes} {pos : Nat} (short : data.size < pos + 8) :
    slot data pos = 0 :=
  if_neg (Nat.not_le_of_lt short)

/-- The longest buffer and the largest number of dropped bytes together just fit in a slot. -/
theorem sizeLimit_add_rebaseThreshold :
    MatchTable.sizeLimit WideTable + rebaseThreshold = slotLimit := rfl

variable {table : WideTable} {history : List Request} {data : Bytes} {pos count : Nat}

/-- What a table holds when it was asked something. Of the bytes that were dropped it counts those
since it last started again; `base` is the number of the others. Every slot holds its latest
position less the base. -/
structure Tracks (table : WideTable) (history : List Request) (base : Nat) : Prop where
  size_slots : table.slots.size = slotCount
  dropped_le : table.dropped ≤ rebaseThreshold
  base_add_dropped : base + table.dropped = total history
  held : ∀ slot < slotCount, table.slots.getD slot 0 = latest slot history - base
  held_le : ∀ slot < slotCount, table.slots.getD slot 0 ≤ slotLimit

namespace Tracks

variable {base : Nat}

theorem empty : Tracks empty [] 0 := by
  have holds : ∀ slot < slotCount, WideTable.empty.slots.getD slot 0 = 0 := by
    intro slot inside
    rw [WideTable.empty, Array.getD_eq_getD_getElem?, Array.getElem?_replicate, if_pos inside,
      Option.getD_some]
  refine ⟨Array.size_replicate, Nat.zero_le _, rfl, ?_, ?_⟩
  · intro slot inside
    rw [holds slot inside, latest]
  · intro slot inside
    rw [holds slot inside]
    exact Nat.zero_le _

/-- A position of the buffer and the bytes that were dropped add up to what a slot can hold. -/
theorem add_dropped_le (tracks : Tracks table history base)
    (allowed : (Request.exchange data pos).Allowed) : pos + table.dropped ≤ slotLimit := by
  rw [← sizeLimit_add_rebaseThreshold]
  exact Nat.add_le_add (Nat.le_trans allowed.1 allowed.2) tracks.dropped_le

theorem dropped_add_le (tracks : Tracks table history base)
    (allowed : (Request.drop count).Allowed) : table.dropped + count ≤ slotLimit := by
  rw [Nat.add_comm, ← sizeLimit_add_rebaseThreshold]
  exact Nat.add_le_add allowed tracks.dropped_le

/-- What is taken off all slots is taken off the base as well, so the answer is the same as if
nothing ever was. -/
theorem answer (tracks : Tracks table history base) (data : Bytes) (pos : Nat) :
    (table.exchange data pos).1 = latest (slot data pos) history - total history := by
  have answered : (table.exchange data pos).1 =
      table.slots.getD (slot data pos) 0 - table.dropped := rfl
  rw [answered, tracks.held _ (slot_lt data pos), Nat.sub_sub, tracks.base_add_dropped]

theorem exchange (tracks : Tracks table history base)
    (allowed : (Request.exchange data pos).Allowed) :
    Tracks (table.exchange data pos).2 (.exchange data pos :: history) base := by
  have fits := tracks.add_dropped_le allowed
  have slots : (table.exchange data pos).2.slots =
      table.slots.setIfInBounds (slot data pos) (pos + table.dropped) :=
    congrArg (table.slots.setIfInBounds (slot data pos)) (Nat.min_eq_left fits)
  have dropped : (table.exchange data pos).2.dropped = table.dropped := rfl
  have counted := tracks.base_add_dropped
  have put : ∀ other, (table.exchange data pos).2.slots.getD other 0 =
      if slot data pos = other then pos + table.dropped else table.slots.getD other 0 := by
    intro other
    have inside : slot data pos < table.slots.size := by
      rw [tracks.size_slots]
      exact slot_lt data pos
    rw [slots, getD_setIfInBounds inside]
  refine ⟨?_, dropped ▸ tracks.dropped_le, counted, ?_, ?_⟩
  · rw [slots, Array.size_setIfInBounds, tracks.size_slots]
  · intro other inside
    rw [put other, latest]
    split
    · omega
    · exact tracks.held other inside
  · intro other inside
    rw [put other]
    split
    · exact fits
    · exact tracks.held_le other inside

/-- Whether or not the table starts to count again, it goes on tracking what it was asked. -/
theorem drop (tracks : Tracks table history base) (allowed : (Request.drop count).Allowed) :
    ∃ base, Tracks (table.drop count) (.drop count :: history) base := by
  have fits := tracks.dropped_add_le allowed
  have counted := tracks.base_add_dropped
  by_cases large : rebaseThreshold < table.dropped + count
  · have kept : (table.dropped + count) % UInt32.size = table.dropped + count :=
      Nat.mod_eq_of_lt (Nat.lt_succ_of_le fits)
    have again : table.drop count = ⟨table.slots.map (· - (table.dropped + count)), 0⟩ := by
      rw [WideTable.drop]
      dsimp only
      rw [if_pos large, kept]
    have lowered : ∀ slot, (table.drop count).slots.getD slot 0 =
        table.slots.getD slot 0 - (table.dropped + count) := by
      intro slot
      rw [again, Array.getD_eq_getD_getElem?, Array.getElem?_map, Array.getD_eq_getD_getElem?]
      cases table.slots[slot]? with
      | none => exact (Nat.zero_sub _).symm
      | some held => rfl
    refine ⟨base + (table.dropped + count), ?_, ?_, ?_, ?_, ?_⟩
    · rw [again, Array.size_map, tracks.size_slots]
    · rw [again]
      exact Nat.zero_le _
    · rw [again, total, ← counted]
      exact (Nat.add_assoc base table.dropped count).symm
    · intro slot inside
      rw [lowered, tracks.held slot inside, Nat.sub_sub]
      rfl
    · intro slot inside
      rw [lowered]
      exact Nat.le_trans (Nat.sub_le _ _) (tracks.held_le slot inside)
  · have onward : table.drop count = ⟨table.slots, table.dropped + count⟩ := by
      rw [WideTable.drop]
      exact if_neg large
    rw [onward]
    refine ⟨base, tracks.size_slots, Nat.le_of_not_lt large, ?_, tracks.held, tracks.held_le⟩
    rw [total, ← counted, Nat.add_assoc]

end Tracks

/-- A table tracks what it was asked. -/
theorem exists_tracks (allowed : ∀ request ∈ history, request.Allowed) :
    ∃ base, Tracks (after history) history base := by
  induction history with
  | nil => exact ⟨0, .empty⟩
  | cons request earlier ih =>
    obtain ⟨base, tracks⟩ := ih fun other member => allowed other (List.mem_cons_of_mem _ member)
    have first := allowed request List.mem_cons_self
    cases request with
    | exchange data pos => exact ⟨base, tracks.exchange first⟩
    | drop count => exact tracks.drop first

/-- Whatever was asked of a table, the answer to an exchange is the latest position that was put in
the same slot, less the bytes that were dropped from the front of the buffer since then; it is zero
where that position was dropped, too, or where there is none. All slots hold 32 bits; neither the
position that is put in place nor the number that is taken off the slots is larger; and the number
of dropped bytes that the table counts never stays above the threshold. -/
theorem exchange_eq_latest_sub_total (allowed : ∀ request ∈ history, request.Allowed) :
    (after history).dropped ≤ rebaseThreshold ∧
    (∀ slot < slotCount, (after history).slots.getD slot 0 ≤ slotLimit) ∧
    (∀ data pos, (Request.exchange data pos).Allowed →
      ((after history).exchange data pos).1 = latest (slot data pos) history - total history ∧
        pos + (after history).dropped ≤ slotLimit) ∧
    ∀ count, (Request.drop count).Allowed → (after history).dropped + count ≤ slotLimit := by
  obtain ⟨base, tracks⟩ := exists_tracks allowed
  refine ⟨tracks.dropped_le, tracks.held_le, ?_, fun count => tracks.dropped_add_le⟩
  intro data pos fits
  exact ⟨tracks.answer data pos, tracks.add_dropped_le fits⟩

/-- A position beyond a gibibyte is put in the slot for short ends of a buffer. Then so much is
dropped that the table starts to count again, and the position is four bytes from the front. -/
theorem exchange_eq_latest_sub_total_rebased :
    let buffer : Bytes := Array.replicate (rebaseThreshold + 10) 0
    let history : List Request :=
      [.drop (rebaseThreshold + 1), .exchange buffer (rebaseThreshold + 5)]
    ((after history).exchange #[] 0).1 = 4 := by
  intro buffer history
  have size : buffer.size = rebaseThreshold + 10 := Array.size_replicate
  have allowed : ∀ request ∈ history, request.Allowed := by
    simp only [history, List.forall_mem_cons, List.not_mem_nil, false_implies, implies_true,
      and_true, Request.Allowed, size]
    decide
  have empty : (Request.exchange #[] 0).Allowed := ⟨Nat.le_refl 0, Nat.zero_le _⟩
  rw [((exchange_eq_latest_sub_total allowed).2.2.1 #[] 0 empty).1, slot_of_short (by decide)]
  simp only [history, latest, total]
  rw [slot_of_short (by rw [size]; omega)]
  decide

end Lz4.Block.WideTable
