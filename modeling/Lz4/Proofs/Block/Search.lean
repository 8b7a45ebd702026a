import Lz4.Proofs.Block.Chain

/-!
# Searches are exact

A search for the longest match follows a chain, passes over positions that cannot be better than
the best so far without comparing them, and ends early when nothing could be longer. None of this
changes its answer (`Lz4.Block.Chain.answers_longestFrom`). In an index of all positions before the
present one it is the position that agrees with it on the most bytes, among all positions in reach,
and the latest of those (`Lz4.Block.Chain.Indexed.longest`). If the index could not keep one of them,
because it takes more than 32 bits, there is no answer (`Lz4.Block.Chain.Indexed.longest_of_lost`).

The thorough compressor searches at positions that it reaches in large and small steps, with an
index that it fills up to each of them. All of these searches are exact in this sense, at every
level, and all that they read is there (`Lz4.Block.Thorough.exact_of_asks`). No block has so many
bytes that a position is lost, but longer inputs are not refused
(`Lz4.Block.Thorough.longest_lost`).
-/

namespace Lz4.Block

namespace Chain

variable {chain : Chain} {data : Bytes} {pos limit best attempts : Nat} {candidate : UInt32}
  {found : Option Candidate}

theorem shared_eq_commonPrefix (place : Nat) (within : limit ≤ data.size) :
    shared data pos limit place =
      Bytes.commonPrefix (data.extract pos limit).toList (data.dropFirst place).toList :=
  Bytes.commonFront_eq_commonPrefix within (Nat.le_refl _)

/-- The answer to a search among some positions, when something with `best` bytes was found before:
a position with more bytes, and with the most of all, the latest of those; or what was found
before. -/
inductive Answers (length : Nat → Nat) (best : Nat) (found : Option Candidate)
    (places : List Nat) : Option Candidate → Prop
  | kept (short : ∀ place ∈ places, length place ≤ best) : Answers length best found places found
  | taken {place : Nat} (member : place ∈ places) (longer : best < length place)
      (most : ∀ other ∈ places, length other ≤ length place)
      (latest : ∀ other ∈ places, length other = length place → other ≤ place) :
      Answers length best found places (some ⟨place, length place⟩)

namespace Answers

variable {length : Nat → Nat} {place : Nat} {places : List Nat} {result : Option Candidate}

theorem nil : Answers length best found [] found := .kept (by simp)

/-- A position that is not better than the best so far does not change the answer. -/
theorem cons_of_le (short : length place ≤ best) (rest : Answers length best found places result) :
    Answers length best found (place :: places) result := by
  cases rest with
  | kept others => exact .kept (List.forall_mem_cons.mpr ⟨short, others⟩)
  | taken member longer most latest =>
    refine .taken (List.mem_cons_of_mem _ member) longer ?_ ?_
    · exact List.forall_mem_cons.mpr ⟨Nat.le_of_lt (Nat.lt_of_le_of_lt short longer), most⟩
    · refine List.forall_mem_cons.mpr ⟨?_, latest⟩
      intro same
      exact absurd longer (Nat.not_lt_of_le (same ▸ short))

/-- A better position takes the place of the best so far, and of the positions behind it only a
better one does not come too late. -/
theorem cons_of_lt (longer : best < length place) (before : ∀ other ∈ places, other < place)
    (rest : Answers length (length place) (some ⟨place, length place⟩) places result) :
    Answers length best found (place :: places) result := by
  cases rest with
  | kept others =>
    refine .taken List.mem_cons_self longer ?_ ?_
    · exact List.forall_mem_cons.mpr ⟨Nat.le_refl _, others⟩
    · exact List.forall_mem_cons.mpr
        ⟨fun _ => Nat.le_refl _, fun other member _ => Nat.le_of_lt (before other member)⟩
  | taken member better most latest =>
    refine .taken (List.mem_cons_of_mem _ member) (Nat.lt_trans longer better) ?_ ?_
    · exact List.forall_mem_cons.mpr ⟨Nat.le_of_lt better, most⟩
    · refine List.forall_mem_cons.mpr ⟨?_, latest⟩
      intro same
      exact absurd better (by rw [same]; exact Nat.lt_irrefl _)

end Answers

/-- Passing over a candidate that disagrees on one byte, and ending early, do not change the
answer. -/
theorem answers_longestFrom (decreasing : (chain.walk pos candidate attempts).Pairwise (· > ·)) :
    Answers (shared data pos limit) best found (chain.walk pos candidate attempts)
      (chain.longestFrom data pos limit found best candidate attempts) := by
  induction attempts generalizing found best candidate with
  | zero => exact .nil
  | succ attempts ih =>
    by_cases ends : Ends pos candidate
    · rw [walk_of_ends ends, longestFrom_of_ends ends]
      exact .nil
    · rw [walk, if_neg ends] at decreasing ⊢
      obtain ⟨before, rest⟩ := List.pairwise_cons.mp decreasing
      -- Whatever comes of the candidate, the search goes on where its link leads.
      have onward : ∀ best found, Answers (shared data pos limit) best found
          (if chain.link candidate.toNat = 0 then []
            else chain.walk pos (candidate.toNat - chain.link candidate.toNat).toUInt32 attempts)
          (if chain.link candidate.toNat = 0 then found
            else chain.longestFrom data pos limit found best
              (candidate.toNat - chain.link candidate.toNat).toUInt32 attempts) := by
        intro best found
        by_cases last : chain.link candidate.toNat = 0
        · rw [if_pos last, if_pos last]
          exact .nil
        · rw [if_neg last] at rest
          rw [if_neg last, if_neg last]
          exact ih rest
      by_cases longer : best < shared data pos limit candidate.toNat
      · have full := counted_of_lt longer
        rw [longestFrom_of_lt ends (full.symm ▸ longer), full]
        apply Answers.cons_of_lt longer before
        by_cases done : pos + shared data pos limit candidate.toNat = limit
        · rw [if_pos done]
          refine .kept fun place _ => ?_
          have most := shared_le data pos limit place
          omega
        · rw [if_neg done]
          exact onward _ _
      · have short := Nat.le_of_not_lt longer
        rw [longestFrom_of_le ends (Nat.le_trans (counted_le ..) short)]
        exact (onward best found).cons_of_le short

/-- The longest match that there is at some positions: where the most bytes are the same, and among
those at the latest position. There is none if four bytes are the same nowhere. -/
inductive Longest (length : Nat → Nat) (places : List Nat) : Option Candidate → Prop
  | none (short : ∀ place ∈ places, length place < minMatch) : Longest length places none
  | some {place : Nat} (member : place ∈ places) (long : minMatch ≤ length place)
      (most : ∀ other ∈ places, length other ≤ length place)
      (latest : ∀ other ∈ places, length other = length place → other ≤ place) :
      Longest length places (some ⟨place, length place⟩)

theorem Answers.longest {length : Nat → Nat} {places : List Nat} {result : Option Candidate}
    (answers : Answers length (minMatch - 1) none places result) :
    Longest length places result := by
  cases answers with
  | kept short => exact .none fun place member => Nat.lt_of_le_pred (by decide) (short place member)
  | taken member longer most latest => exact .some member (Nat.le_of_pred_lt longer) most latest

/-- Only the lengths at the positions themselves matter. -/
theorem Longest.congr {length other : Nat → Nat} {places : List Nat} {result : Option Candidate}
    (longest : Longest length places result) (same : ∀ place ∈ places, length place = other place) :
    Longest other places result := by
  cases longest with
  | none short => exact .none fun place member => same place member ▸ short place member
  | @some place member long most latest =>
    rw [same place member] at long most latest ⊢
    refine .some member long ?_ ?_
    · intro place inside
      rw [← same place inside]
      exact most place inside
    · intro place inside
      rw [← same place inside]
      exact latest place inside

/-- There is only one longest match. -/
theorem Longest.unique {length : Nat → Nat} {places : List Nat} {first second : Option Candidate}
    (one : Longest length places first) (other : Longest length places second) :
    first = second := by
  cases one with
  | none short =>
    cases other with
    | none => rfl
    | some member long => exact absurd (short _ member) (Nat.not_lt_of_le long)
  | @some place member long most latest =>
    cases other with
    | none short => exact absurd (short _ member) (Nat.not_lt_of_le long)
    | @some otherPlace otherMember _ otherMost otherLatest =>
      have lengths : length place = length otherPlace :=
        Nat.le_antisymm (otherMost place member) (most otherPlace otherMember)
      have places : place = otherPlace :=
        Nat.le_antisymm (otherLatest place member lengths)
          (latest otherPlace otherMember lengths.symm)
      rw [places]

/-- A search in an index of all positions before the present one finds the longest match in reach,
if all positions in reach are kept as they are. -/
theorem Indexed.longest (indexed : Indexed chain data) (limit attempts : Nat)
    (small : ∀ place ∈ reach data chain.next attempts, place < nowhere.toNat) :
    Longest (shared data chain.next limit) (reach data chain.next attempts)
      (chain.longest data chain.next limit attempts) := by
  have through := indexed.walk_head attempts small
  rw [← through]
  apply Answers.longest
  apply answers_longestFrom
  rw [through]
  exact pairwise_reach data chain.next attempts

/-- If one of them is lost, the search finds nothing. -/
theorem Indexed.longest_of_lost (indexed : Indexed chain data) (limit : Nat) {attempts place : Nat}
    (reached : place ∈ reach data chain.next attempts) (large : nowhere.toNat ≤ place) :
    chain.longest data chain.next limit attempts = none :=
  longestFrom_of_ends (indexed.ends_of_reached reached large)

/-- The places that a search comes to, each with the length to beat there. -/
inductive Visits (chain : Chain) (data : Bytes) (pos limit : Nat) :
    Nat → UInt32 → Nat → Nat → Nat → Prop
  | here {best attempts : Nat} {candidate : UInt32} (held : candidate ≠ nowhere) :
      Visits chain data pos limit best candidate (attempts + 1) candidate.toNat best
  | onward {best attempts place beaten : Nat} {candidate : UInt32} (going : ¬ Ends pos candidate)
      (undecided : ¬ (best < counted data pos limit best candidate.toNat ∧
        pos + counted data pos limit best candidate.toNat = limit))
      (linked : chain.link candidate.toNat ≠ 0)
      (further : Visits chain data pos limit
        (max best (counted data pos limit best candidate.toNat))
        (candidate.toNat - chain.link candidate.toNat).toUInt32 attempts place beaten) :
      Visits chain data pos limit best candidate (attempts + 1) place beaten

/-- A search only goes back, and what is to be beaten leaves room before the limit. -/
theorem Visits.inside {place beaten : Nat}
    (visits : Visits chain data pos limit best candidate attempts place beaten)
    (before : candidate ≠ nowhere → candidate.toNat < pos) (room : pos + best < limit) :
    place < pos ∧ place ≤ nowhere.toNat ∧ pos + beaten < limit := by
  induction visits with
  | @here best attempts candidate held =>
    exact ⟨before held, Nat.le_of_lt_succ candidate.toNat_lt, room⟩
  | @onward best attempts place beaten candidate going undecided linked further ih =>
    have back := Nat.le_trans
      (toNat_toUInt32_le (candidate.toNat - chain.link candidate.toNat)) (Nat.sub_le _ _)
    apply ih fun _ => Nat.lt_of_le_of_lt back (before (not_or.mp going).1)
    have bound := Nat.le_trans (counted_le data pos limit best candidate.toNat)
      (shared_le data pos limit candidate.toNat)
    by_cases longer : best < counted data pos limit best candidate.toNat
    · have short := fun full => undecided ⟨longer, full⟩
      rw [Nat.max_eq_right (Nat.le_of_lt longer)]
      omega
    · rw [Nat.max_eq_left (Nat.le_of_not_lt longer)]
      exact room

/-- Where a search from the head of a chain comes to, nothing that it reads was overwritten. -/
theorem Indexed.of_visits (indexed : Indexed chain data) {slot place beaten : Nat}
    (room : chain.next + best < limit)
    (visits : Visits chain data chain.next limit best (chain.head slot) attempts place beaten) :
    place < chain.next ∧ chain.next + beaten < limit ∧
      (chain.next - place ≤ maxDistance →
        chain.link place = gap data place ∧ chain.link place ≤ place ∧
          chain.link place ≤ maxDistance) := by
  obtain ⟨before, small, inside⟩ := visits.inside (indexed.ordered slot) room
  refine ⟨before, inside, ?_⟩
  intro near
  have kept : chain.next ≤ place + linkCount := by
    simp only [maxDistance, windowSize, linkCount] at near ⊢
    omega
  rw [indexed.link_eq place before kept small]
  exact ⟨rfl, gap_le data place⟩

end Chain

namespace Thorough

variable {input : Bytes} {limit attempts start anchor cursor pos : Nat} {level : Int}
  {chosen : Candidate} {chain asked : Chain} {sink : Sink}

/-- The searches for a match that starts after one that was found. Each is given by the index before
it and by its position. -/
inductive ImproveAsks (input : Bytes) (attempts : Nat) :
    Nat → Candidate → Chain → Chain → Nat → Prop
  | here {start : Nat} {chosen : Candidate} {chain : Chain}
      (room : start + 1 + endMargin ≤ input.size) :
      ImproveAsks input attempts start chosen chain chain (start + 1)
  | onward {start pos : Nat} {chosen later : Candidate} {chain asked : Chain}
      (room : start + 1 + endMargin ≤ input.size)
      (found : (chain.insertUpTo input (start + 1)).longest input (start + 1)
        (input.size - lastLiterals) attempts = some later)
      (longer : chosen.length < later.length)
      (further : ImproveAsks input attempts (start + 1) later
        (chain.insertUpTo input (start + 1)) asked pos) :
      ImproveAsks input attempts start chosen chain asked pos

/-- The searches that are made while the rest of an input is compressed. -/
inductive ScanAsks (input : Bytes) (attempts : Nat) :
    Nat → Nat → Chain → Sink → Chain → Nat → Prop
  | here {anchor pos : Nat} {chain : Chain} {sink : Sink} (room : pos + endMargin ≤ input.size) :
      ScanAsks input attempts anchor pos chain sink chain pos
  | literal {anchor start pos : Nat} {chain asked : Chain} {sink : Sink}
      (room : start + endMargin ≤ input.size)
      (none : (chain.insertUpTo input start).longest input start (input.size - lastLiterals)
        attempts = none)
      (further : ScanAsks input attempts anchor (start + 1) (chain.insertUpTo input start) sink
        asked pos) :
      ScanAsks input attempts anchor start chain sink asked pos
  | improving {anchor start pos : Nat} {first : Candidate} {chain asked : Chain} {sink : Sink}
      (room : start + endMargin ≤ input.size)
      (found : (chain.insertUpTo input start).longest input start (input.size - lastLiterals)
        attempts = some first)
      (further : ImproveAsks input attempts start first (chain.insertUpTo input start) asked pos) :
      ScanAsks input attempts anchor start chain sink asked pos
  | behind {anchor start improved back pos : Nat} {first chosen : Candidate}
      {chain after asked : Chain} {sink written : Sink}
      (room : start + endMargin ≤ input.size)
      (found : (chain.insertUpTo input start).longest input start (input.size - lastLiterals)
        attempts = some first)
      (improves : improve input (input.size - lastLiterals) attempts start first
        (chain.insertUpTo input start) = (improved, chosen, after))
      (absorbed : input.agreeBackward improved chosen.position (improved - anchor) = back)
      (taken : sink.writePieces (sequencePieces (input.extract anchor (improved - back))
        ⟨improved - chosen.position, chosen.length + back⟩) = (written, true))
      (further : ScanAsks input attempts (improved + chosen.length) (improved + chosen.length)
        after written asked pos) :
      ScanAsks input attempts anchor start chain sink asked pos

/-- The searches that are made while the bytes from `cursor` on are compressed. -/
def Asks (chain : Chain) (input : Bytes) (cursor : Nat) (level : Int) (sink : Sink)
    (asked : Chain) (pos : Nat) : Prop :=
  ScanAsks input (depth level) cursor cursor chain.reset sink asked pos

/-- The indexes that there are: a new one, one that was emptied, and what is left of one when a
block was compressed with it. -/
inductive Used : Chain → Prop
  | new : Used .empty
  | reset {chain : Chain} (used : Used chain) : Used chain.reset
  | compressed {chain : Chain} (used : Used chain) (input : Bytes) (cursor : Nat) (level : Int)
      (sink : Sink) : Used (compressWith chain input cursor level sink).table

/-- An index that was used before starts over as a new one. -/
theorem Used.reset_eq (used : Used chain) : chain.reset = .empty := by
  induction used with
  | new => simp only [Chain.reset, Chain.empty, Array.map_replicate]
  | @reset chain used ih => rw [Chain.reset_reset, ih]
  | @compressed chain used input cursor level sink ih =>
    rw [compressWith, reset_scan, Chain.reset_reset, ih]

/-- A search at a position that is made with an index gives the answer it is meant to give, unless a
position in reach is lost because it takes more bits than are kept, and all that it reads is
there. -/
structure Exact (input : Bytes) (attempts : Nat) (chain : Chain) (pos : Nat) : Prop where
  /-- The answer is the longest match among the positions in reach, with the length of the longest
  common prefix, if each of them is kept as it is. -/
  longest : (∀ place ∈ Chain.reach input pos attempts, place < Chain.nowhere.toNat) →
    Chain.Longest
      (fun place => Bytes.commonPrefix (input.extract pos (input.size - lastLiterals)).toList
        (input.dropFirst place).toList)
      (Chain.reach input pos attempts)
      ((chain.insertUpTo input pos).longest input pos (input.size - lastLiterals) attempts)
  /-- If one of them is not, nothing is found. -/
  lost : ∀ place ∈ Chain.reach input pos attempts, Chain.nowhere.toNat ≤ place →
    (chain.insertUpTo input pos).longest input pos (input.size - lastLiterals) attempts = none
  /-- This does not happen in an input whose positions take 32 bits as far as a match may start. -/
  narrow : input.size < UInt32.size + endMargin →
    ∀ place ∈ Chain.reach input pos attempts, place < Chain.nowhere.toNat
  /-- Every position that is added to the index first has four bytes, and what is kept of the latest
  position with the same hash is not past it. -/
  added : ∀ count < pos - chain.next,
    let before := chain.insertMany input count
    before.next + minMatch ≤ input.size ∧
      (before.head (Chain.hash input before.next) ≠ Chain.nowhere →
        (before.head (Chain.hash input before.next)).toNat < before.next)
  /-- Every place that the search comes to lies before its position, and the bytes that decide
  whether it is compared lie before the limit. If it is near enough to be compared, its link is
  still the distance that was kept for it; this does not lead past the start of the input, and takes
  16 bits. -/
  visited : ∀ place beaten,
    Chain.Visits (chain.insertUpTo input pos) input pos (input.size - lastLiterals) (minMatch - 1)
      ((chain.insertUpTo input pos).head (Chain.hash input pos)) attempts place beaten →
    place < pos ∧ pos + beaten < input.size - lastLiterals ∧
      (pos - place ≤ maxDistance →
        (chain.insertUpTo input pos).link place = Chain.gap input place ∧
          (chain.insertUpTo input pos).link place ≤ place ∧
          (chain.insertUpTo input pos).link place ≤ maxDistance)
  /-- There are bytes enough behind the position for its hash and for the limit. -/
  room : pos + endMargin ≤ input.size

theorem exact_of_ready (attempts : Nat) (ready : Chain.Ready chain input pos)
    (room : pos + endMargin ≤ input.size) : Exact input attempts chain pos := by
  have filled := ready.indexed_insertUpTo
  have next := ready.next_insertUpTo
  have limited : pos + minMatch ≤ input.size - lastLiterals := by
    simp only [endMargin, lastLiterals, minMatch] at room ⊢
    omega
  refine ⟨?_, ?_, ?_, ?_, ?_, room⟩
  · intro small
    have longest := filled.longest (input.size - lastLiterals) attempts
    rw [next] at longest
    apply (longest small).congr
    intro place member
    exact Chain.shared_eq_commonPrefix place (Nat.sub_le _ _)
  · intro place reached large
    have nothing := filled.longest_of_lost (input.size - lastLiterals) (next.symm ▸ reached) large
    rwa [next] at nothing
  · intro short place reached
    have before := Chain.lt_of_mem_reach reached
    have last : Chain.nowhere.toNat = UInt32.size - 1 := rfl
    omega
  · intro count few
    obtain ⟨ordered, reached⟩ := Chain.ordered_insertMany input count ready.ordered
    refine ⟨?_, ordered _⟩
    rw [reached]
    omega
  · intro place beaten visits
    have lower : pos + (minMatch - 1) < input.size - lastLiterals :=
      Nat.lt_of_lt_of_le (Nat.add_lt_add_left (by decide) pos) limited
    have sound := @Chain.Indexed.of_visits (chain.insertUpTo input pos) input
    rw [next] at sound
    exact sound filled lower visits

/-- Moving ahead to a longer match leaves the index ready for the position behind its start. -/
theorem ready_improve {improvedStart : Nat} {improvedChoice : Candidate} {improvedChain : Chain}
    (ready : Chain.Ready chain input (start + 1))
    (improved : improve input limit attempts start chosen chain =
      (improvedStart, improvedChoice, improvedChain)) :
    Chain.Ready improvedChain input (improvedStart + 1) := by
  fun_induction improve input limit attempts start chosen chain with
  | case1 start chosen chain | case3 start chosen chain =>
    simp only [Prod.mk.injEq] at improved
    obtain ⟨rfl, -, rfl⟩ := improved
    exact ⟨ready.indexed_insertUpTo, Nat.le_of_eq ready.next_insertUpTo⟩
  | case2 start chosen chain room after better found longer ih => exact ih ready.insertUpTo improved
  | case4 =>
    cases improved
    exact ready

theorem ImproveAsks.exact (asks : ImproveAsks input attempts start chosen chain asked pos)
    (ready : Chain.Ready chain input (start + 1)) : Exact input attempts asked pos := by
  induction asks with
  | here room => exact exact_of_ready attempts ready room
  | onward room found longer further ih => exact ih ready.insertUpTo

/-- From an index that is ready for a position, all searches that are made from there on are
exact. -/
theorem ScanAsks.exact (asks : ScanAsks input attempts anchor start chain sink asked pos)
    (ready : Chain.Ready chain input start) : Exact input attempts asked pos := by
  induction asks with
  | here room => exact exact_of_ready attempts ready room
  | literal room none further ih => exact ih ready.insertUpTo
  | improving room found further => exact further.exact ready.insertUpTo
  | behind room found improves absorbed taken further ih =>
    have long := (le_of_improve (Chain.minMatch_le_of_longest found) improves).2
    apply ih
    apply (ready_improve ready.insertUpTo improves).mono
    exact Nat.add_le_add_left (Nat.le_trans (by decide) long) _

/-- All searches that the thorough compressor makes are exact, for every input, cursor and level,
with whatever index it is called and whatever sink it writes to. -/
theorem exact_of_asks (used : Used chain) (asks : Asks chain input cursor level sink asked pos) :
    Exact input (depth level) asked pos := by
  rw [Asks, used.reset_eq] at asks
  exact asks.exact ⟨.empty input, Nat.zero_le cursor⟩

/-- Four bytes that are history come again, and again to the end. The only position in reach of the
first search is the first of all, and up to the limit, eleven bytes are the same from there on. -/
theorem exact_of_asks_repeated :
    let input : Bytes := (List.replicate 5 [97, 98, 99, 100]).flatten.toArray
    (Chain.empty.insertUpTo input 4).longest input 4 (input.size - lastLiterals)
      (depth defaultLevel) = some ⟨0, 11⟩ := by
  intro input
  have asks : Asks .empty input 4 defaultLevel .growing .empty 4 := by
    rw [Asks, Used.new.reset_eq]
    exact .here (by decide)
  have reached : Chain.reach input 4 (depth defaultLevel) = [0] := by cbv
  have same : Bytes.commonPrefix (input.extract 4 (input.size - lastLiterals)).toList
      (input.dropFirst 0).toList = 11 := by cbv
  have exact := exact_of_asks .new asks
  have longest := exact.longest (exact.narrow (by decide))
  rw [reached] at longest
  generalize (Chain.empty.insertUpTo input 4).longest input 4 (input.size - lastLiterals)
    (depth defaultLevel) = result at longest ⊢
  cases longest with
  | none short =>
    have few := short 0 (List.mem_singleton_self 0)
    rw [same] at few
    exact absurd few (by decide)
  | some member => rw [List.mem_singleton.mp member, same]

/-- A search just past 4 GiB of zeros. The position before it is in reach and is followed by the same
bytes, as far as they count, but it takes 33 bits, and so nothing is found. -/
theorem longest_lost :
    let input : Bytes := Array.replicate (UInt32.size + 13) 0
    let pos := UInt32.size + 1
    Asks .empty input pos defaultLevel .growing .empty pos ∧
      (Chain.empty.insertUpTo input pos).longest input pos (input.size - lastLiterals)
        (depth defaultLevel) = none ∧
      ¬ Chain.Longest
        (fun place => Bytes.commonPrefix (input.extract pos (input.size - lastLiterals)).toList
          (input.dropFirst place).toList)
        (Chain.reach input pos (depth defaultLevel)) none := by
  intro input pos
  have size : input.size = UInt32.size + 13 := Array.size_replicate
  have room : pos + endMargin ≤ input.size := Nat.le_of_eq size.symm
  have asks : Asks .empty input pos defaultLevel .growing .empty pos := by
    rw [Asks, Used.new.reset_eq]
    exact .here room
  have exact : Exact input (depth defaultLevel) .empty pos :=
    exact_of_ready _ ⟨.empty input, Nat.zero_le pos⟩ room
  have reached : UInt32.size ∈ Chain.reach input pos (depth defaultLevel) :=
    Chain.mem_reach_succ (by rw [Chain.hash_zeros, Chain.hash_zeros]) 255
  have same : Bytes.commonPrefix (input.extract pos (input.size - lastLiterals)).toList
      (input.dropFirst UInt32.size).toList = 7 := by
    rw [Bytes.dropFirst, size, Array.extract_replicate, Array.extract_replicate,
      Array.toList_replicate, Array.toList_replicate, Bytes.commonPrefix_replicate]
    simp only [pos, lastLiterals]
    omega
  refine ⟨asks, exact.lost _ reached (by decide), ?_⟩
  rintro ⟨short⟩
  have few := short _ reached
  rw [same] at few
  exact absurd few (by decide)

end Thorough

end Lz4.Block
