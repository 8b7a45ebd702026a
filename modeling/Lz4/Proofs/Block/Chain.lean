import Lz4.Proofs.Block.Thorough

/-!
# What the chains hold

For every hash, the head of an index is what is kept of the latest of the positions with that hash
(`Lz4.Block.Chain.places`), and the link of a position is its distance from the one before it with
the same hash, as long as 64 Ki positions have not been added since
(`Lz4.Block.Chain.Indexed`). Every position that is added keeps it so
(`Lz4.Block.Chain.Indexed.insertNext`). Following a chain from its head, one therefore comes through
all positions with the hash that are near enough for a match, from the latest to the earliest
(`Lz4.Block.Chain.Indexed.walk_head`).

This holds as far as positions take 32 bits and differ from the word that stands for none. The first
that does not is lost, with all that come before it: what is kept of it is none, or too far away to
go on from (`Lz4.Block.Chain.kept_of_le`, `Lz4.Block.Chain.Indexed.ends_of_reached`).
-/

namespace Lz4.Block.Chain

variable {chain : Chain} {data : Bytes} {slot bound place pos : Nat}

theorem hash_lt (data : Bytes) (pos : Nat) : hash data pos < hashCount := by
  rw [hash, UInt32.toNat_shiftRight, Nat.shiftRight_eq_div_pow]
  apply Nat.div_lt_of_lt_mul
  exact UInt32.toNat_lt _

/-- The positions before `bound` that have a hash, the latest first. -/
def places (data : Bytes) (slot bound : Nat) : List Nat :=
  (List.range bound).reverse.filter fun place => hash data place = slot

theorem mem_places : place ∈ places data slot bound ↔ place < bound ∧ hash data place = slot := by
  simp [places]

theorem places_succ (data : Bytes) (slot bound : Nat) :
    places data slot (bound + 1) =
      if hash data bound = slot then bound :: places data slot bound
      else places data slot bound := by
  simp only [places, List.range_succ, List.reverse_append, List.reverse_singleton,
    List.singleton_append, List.filter_cons, decide_eq_true_eq]

/-- Behind a position come the positions before it. -/
theorem places_of_eq_cons {rest : List Nat} (split : places data slot bound = place :: rest) :
    place < bound ∧ hash data place = slot ∧ rest = places data slot place := by
  induction bound with
  | zero => cases split
  | succ bound ih =>
    rw [places_succ] at split
    by_cases same : hash data bound = slot
    · rw [if_pos same] at split
      cases split
      exact ⟨Nat.lt_succ_self _, same, rfl⟩
    · rw [if_neg same] at split
      obtain ⟨before, rest⟩ := ih split
      exact ⟨Nat.lt_succ_of_lt before, rest⟩

/-- The distance from a position to the one before it with the same hash, zero if there is none or
if it is too far away for a match. -/
def gap (data : Bytes) (place : Nat) : Nat :=
  match (places data (hash data place) place).head? with
  | none => 0
  | some earlier => if maxDistance < place - earlier then 0 else place - earlier

theorem gap_le (data : Bytes) (place : Nat) :
    gap data place ≤ place ∧ gap data place ≤ maxDistance := by
  unfold gap
  split
  · exact ⟨Nat.zero_le _, Nat.zero_le _⟩
  · split <;> omega

theorem gap_of_eq_nil (none : places data (hash data place) place = []) : gap data place = 0 := by
  rw [gap, none]
  rfl

theorem gap_of_eq_cons {earlier : Nat} {rest : List Nat}
    (split : places data (hash data place) place = earlier :: rest) :
    gap data place = if maxDistance < place - earlier then 0 else place - earlier := by
  rw [gap, split]
  rfl

/-- What is kept of the latest position with a hash. -/
def kept : Option Nat → UInt32
  | none => nowhere
  | some place => place.toUInt32

/-- A position is kept as it is if it is less than what stands for no position. -/
theorem kept_of_lt (small : place < nowhere.toNat) :
    kept (some place) ≠ nowhere ∧ (kept (some place)).toNat = place := by
  have same : (kept (some place)).toNat = place :=
    UInt32.toNat_ofNat_of_lt (Nat.lt_of_lt_of_le small (by decide))
  refine ⟨?_, same⟩
  intro none
  rw [none] at same
  exact Nat.ne_of_gt small same

/-- Any other position is lost: it is kept as none, or as one that is too far away for a match. -/
theorem kept_of_le (large : nowhere.toNat ≤ place) :
    kept (some place) = nowhere ∨ maxDistance < place - (kept (some place)).toNat := by
  have low : (kept (some place)).toNat = place % UInt32.size := rfl
  have last : nowhere.toNat = UInt32.size - 1 := rfl
  rw [← UInt32.toNat_inj, low, last]
  simp only [maxDistance, windowSize, UInt32.size] at last large ⊢
  omega

theorem distanceTo_le (earlier : UInt32) (pos : Nat) : distanceTo earlier pos ≤ maxDistance := by
  unfold distanceTo
  dsimp only
  split
  · exact Nat.zero_le _
  · split
    · exact Nat.zero_le _
    · exact Nat.le_of_not_lt ‹_›

/-- As long as the positions before it are kept as they are, the distance of a position from the one
before it is what it should be. -/
theorem distanceTo_kept (small : place ≤ nowhere.toNat) :
    distanceTo (kept (places data (hash data place) place).head?) place = gap data place := by
  rcases split : places data (hash data place) place with _ | ⟨earlier, rest⟩
  · rw [gap_of_eq_nil split]
    rfl
  · obtain ⟨before, -, -⟩ := places_of_eq_cons split
    obtain ⟨held, same⟩ := kept_of_lt (Nat.lt_of_lt_of_le before small)
    rw [gap_of_eq_cons split, List.head?_cons, distanceTo, if_neg held, same]

/-- The index of all positions before the next one. Links are kept for the last 64 Ki of them, and
are what they should be up to the first position that cannot be kept as it is. -/
structure Indexed (chain : Chain) (data : Bytes) : Prop where
  size_heads : chain.heads.size = hashCount
  size_links : chain.links.size = linkCount
  head_eq : ∀ slot < hashCount, chain.head slot = kept (places data slot chain.next).head?
  link_eq : ∀ place < chain.next, chain.next ≤ place + linkCount → place ≤ nowhere.toNat →
    chain.link place = gap data place

namespace Indexed

theorem empty (data : Bytes) : Indexed .empty data := by
  refine ⟨Array.size_replicate, Array.size_replicate, ?_, ?_⟩
  · intro slot inside
    rw [head, Chain.empty, Array.getD_eq_getD_getElem?, Array.getElem?_replicate, if_pos inside]
    rfl
  · intro place before
    exact absurd before (Nat.not_lt_zero place)

theorem ordered (indexed : Indexed chain data) : chain.Ordered := by
  intro slot held
  by_cases inside : slot < hashCount
  · rw [indexed.head_eq slot inside] at held ⊢
    cases latest : (places data slot chain.next).head? with
    | none =>
      rw [latest] at held
      exact absurd rfl held
    | some place =>
      have before := (mem_places.mp (List.mem_of_head? latest)).1
      exact Nat.lt_of_le_of_lt (toNat_toUInt32_le place) before
  · rw [head, Array.getD_eq_getD_getElem?, Array.getElem?_eq_none] at held
    · exact absurd rfl held
    · rw [indexed.size_heads]
      exact Nat.le_of_not_lt inside

theorem head_insertNext (indexed : Indexed chain data) (slot : Nat) :
    (chain.insertNext data).head slot =
      if hash data chain.next = slot then kept (some chain.next) else chain.head slot := by
  have inside : hash data chain.next < chain.heads.size := by
    rw [indexed.size_heads]
    exact hash_lt data chain.next
  exact getD_setIfInBounds inside (kept (some chain.next)) slot nowhere

/-- The link of a position that is added takes the place of the one 64 Ki positions before. -/
theorem link_insertNext (indexed : Indexed chain data) (place : Nat) :
    (chain.insertNext data).link place =
      if chain.next % linkCount = place % linkCount then
        distanceTo (chain.head (hash data chain.next)) chain.next
      else chain.link place := by
  have inside : chain.next % linkCount < chain.links.size := by
    rw [indexed.size_links]
    exact Nat.mod_lt _ (by decide)
  have short := distanceTo_le (chain.head (hash data chain.next)) chain.next
  have put : (chain.insertNext data).links = chain.links.setIfInBounds (chain.next % linkCount)
      (distanceTo (chain.head (hash data chain.next)) chain.next).toUInt16 := rfl
  rw [link, put, getD_setIfInBounds inside]
  split
  · exact UInt16.toNat_ofNat_of_lt (Nat.lt_of_le_of_lt short (by decide))
  · rfl

theorem insertNext (indexed : Indexed chain data) : Indexed (chain.insertNext data) data := by
  refine ⟨?_, ?_, ?_, ?_⟩
  · rw [← indexed.size_heads]
    exact Array.size_setIfInBounds
  · rw [← indexed.size_links]
    exact Array.size_setIfInBounds
  · intro slot inside
    rw [indexed.head_insertNext, next_insertNext, places_succ]
    split
    · rfl
    · exact indexed.head_eq slot inside
  · intro place before near small
    rw [next_insertNext] at before near
    rw [indexed.link_insertNext]
    by_cases latest : place = chain.next
    · subst latest
      rw [if_pos rfl, indexed.head_eq _ (hash_lt data chain.next), distanceTo_kept small]
    · have apart : chain.next % linkCount ≠ place % linkCount := by
        simp only [linkCount] at near ⊢
        omega
      rw [if_neg apart]
      exact indexed.link_eq place (by omega) (by omega) small

theorem insertMany (indexed : Indexed chain data) (count : Nat) :
    Indexed (chain.insertMany data count) data := by
  induction count generalizing chain with
  | zero => exact indexed
  | succ count ih => exact ih indexed.insertNext

end Indexed

/-- The index of all positions before one that is not past `pos`: what a search at `pos` fills up
first. -/
structure Ready (chain : Chain) (data : Bytes) (pos : Nat) : Prop extends Indexed chain data where
  next_le : chain.next ≤ pos

namespace Ready

theorem mono {later : Nat} (ready : Ready chain data pos) (onward : pos ≤ later) :
    Ready chain data later :=
  ⟨ready.toIndexed, Nat.le_trans ready.next_le onward⟩

theorem next_insertUpTo (ready : Ready chain data pos) : (chain.insertUpTo data pos).next = pos :=
  (ordered_insertUpTo data ready.ordered ready.next_le).2

theorem indexed_insertUpTo (ready : Ready chain data pos) :
    Indexed (chain.insertUpTo data pos) data :=
  ready.insertMany (pos - chain.next)

/-- When it is filled up for a search, an index is ready for the next position. -/
theorem insertUpTo (ready : Ready chain data pos) :
    Ready (chain.insertUpTo data pos) data (pos + 1) :=
  ⟨ready.indexed_insertUpTo, Nat.le_succ_of_le (Nat.le_of_eq ready.next_insertUpTo)⟩

end Ready

/-- The positions on the chain from a candidate on, up to where a search at `pos` ends, and at most
`attempts` of them. -/
def walk (chain : Chain) (pos : Nat) (candidate : UInt32) : Nat → List Nat
  | 0 => []
  | attempts + 1 =>
    if Ends pos candidate then []
    else
      candidate.toNat ::
        if chain.link candidate.toNat = 0 then []
        else walk chain pos (candidate.toNat - chain.link candidate.toNat).toUInt32 attempts

theorem walk_of_ends {candidate : UInt32} (ends : Ends pos candidate) (attempts : Nat) :
    walk chain pos candidate attempts = [] := by
  cases attempts with
  | zero => rfl
  | succ attempts => rw [walk, if_pos ends]

/-- The positions that a search at `pos` goes through: of those with the same hash that are near
enough for a match, the latest `attempts`. -/
def reach (data : Bytes) (pos attempts : Nat) : List Nat :=
  ((List.range pos).reverse.filter fun place =>
    hash data place = hash data pos ∧ pos - place ≤ maxDistance).take attempts

theorem reach_eq (data : Bytes) (pos attempts : Nat) :
    reach data pos attempts =
      ((places data (hash data pos) pos).filter fun place => pos - place ≤ maxDistance).take
        attempts := by
  rw [reach, places, List.filter_filter]
  congr 2
  funext place
  simp [and_comm]

theorem lt_of_mem_reach {attempts : Nat} (reached : place ∈ reach data pos attempts) :
    place < pos := by
  rw [reach_eq] at reached
  exact (mem_places.mp (List.mem_filter.mp (List.mem_of_mem_take reached)).1).1

/-- A position is in reach of the next one if they have the same hash. -/
theorem mem_reach_succ (same : hash data place = hash data (place + 1)) (attempts : Nat) :
    place ∈ reach data (place + 1) (attempts + 1) := by
  have near : place + 1 - place ≤ maxDistance := by
    rw [Nat.add_sub_cancel_left]
    decide
  rw [reach_eq, places_succ, if_pos same, List.filter_cons, if_pos (decide_eq_true near),
    List.take_succ_cons]
  exact List.mem_cons_self

/-- All positions in zeros have the same hash. -/
theorem hash_zeros (count pos : Nat) : hash (Array.replicate count 0) pos = 0 := by
  have zero : ∀ place, Bytes.byteAt (Array.replicate count 0) place = 0 := by
    intro place
    rw [Bytes.byteAt, Array.getD_eq_getD_getElem?, Array.getElem?_replicate]
    split <;> rfl
  simp only [hash, Bytes.word, zero]
  rfl

theorem pairwise_reach (data : Bytes) (pos attempts : Nat) :
    (reach data pos attempts).Pairwise (· > ·) := by
  rw [reach]
  apply List.Pairwise.take
  apply List.Pairwise.filter
  rw [List.pairwise_reverse]
  exact List.pairwise_lt_range

/-- Where a position is too far away, those before it are, too. -/
theorem filter_of_far (data : Bytes) (slot : Nat) (far : maxDistance < pos - place) :
    ((place :: places data slot place).filter fun place => pos - place ≤ maxDistance) = [] := by
  apply List.filter_eq_nil_iff.mpr
  intro earlier member
  have behind : earlier ≤ place := by
    rcases List.mem_cons.mp member with rfl | before
    · exact Nat.le_refl _
    · exact Nat.le_of_lt (mem_places.mp before).1
  rw [decide_eq_true_eq]
  omega

/-- From any position that is in the index and is kept as it is, the chain goes through it and the
positions before it with the same hash, as far as they are near enough. -/
theorem Indexed.walk_eq (indexed : Indexed chain data) (attempts : Nat)
    (before : place < chain.next) (small : place < nowhere.toNat) :
    walk chain chain.next (kept (some place)) attempts =
      ((place :: places data (hash data place) place).filter
        fun place => chain.next - place ≤ maxDistance).take attempts := by
  induction attempts generalizing place with
  | zero => rfl
  | succ attempts ih =>
    obtain ⟨held, same⟩ := kept_of_lt small
    by_cases far : maxDistance < chain.next - place
    · have ends : Ends chain.next (kept (some place)) := .inr (by rwa [same])
      rw [walk_of_ends ends, filter_of_far data _ far, List.take_nil]
    · have going : ¬ Ends chain.next (kept (some place)) := not_or.mpr ⟨held, by rwa [same]⟩
      have near : chain.next ≤ place + linkCount := by
        simp only [maxDistance, windowSize, linkCount] at far ⊢
        omega
      rw [walk, if_neg going, same, List.filter_cons,
        if_pos (decide_eq_true (Nat.le_of_not_lt far)), List.take_succ_cons,
        indexed.link_eq place before near (Nat.le_of_lt small)]
      congr 1
      rcases split : places data (hash data place) place with _ | ⟨earlier, rest⟩
      · rw [gap_of_eq_nil split, if_pos rfl, List.filter_nil, List.take_nil]
      · obtain ⟨back, same, rfl⟩ := places_of_eq_cons split
        rw [gap_of_eq_cons split]
        by_cases apart : maxDistance < place - earlier
        · have out : maxDistance < chain.next - earlier := by omega
          rw [if_pos apart, if_pos rfl, filter_of_far data _ out, List.take_nil]
        · rw [if_neg apart, if_neg (by omega), Nat.sub_sub_self (Nat.le_of_lt back), ← same]
          exact ih (Nat.lt_trans back before) (Nat.lt_trans back small)

/-- If the latest position with the hash of the next one is lost, a search there ends at once. -/
theorem Indexed.ends_of_lost (indexed : Indexed chain data)
    (latest : (places data (hash data chain.next) chain.next).head? = some place)
    (large : nowhere.toNat ≤ place) : Ends chain.next (chain.head (hash data chain.next)) := by
  have before := (mem_places.mp (List.mem_of_head? latest)).1
  rw [indexed.head_eq _ (hash_lt data chain.next), latest]
  rcases kept_of_le large with none | far
  · exact .inl none
  · exact .inr (Nat.lt_of_lt_of_le far (Nat.sub_le_sub_right (Nat.le_of_lt before) _))

/-- From the head of the hash at the next position, the chain goes through what is in reach of it,
if all of that is kept as it is. -/
theorem Indexed.walk_head (indexed : Indexed chain data) (attempts : Nat)
    (small : ∀ place ∈ reach data chain.next attempts, place < nowhere.toNat) :
    walk chain chain.next (chain.head (hash data chain.next)) attempts =
      reach data chain.next attempts := by
  rcases split : places data (hash data chain.next) chain.next with _ | ⟨latest, rest⟩
  · rw [indexed.head_eq _ (hash_lt data chain.next), reach_eq, split, List.filter_nil,
      List.take_nil]
    exact walk_of_ends (.inl rfl) attempts
  · obtain ⟨before, same, rfl⟩ := places_of_eq_cons split
    have head : (places data (hash data chain.next) chain.next).head? = some latest := by
      rw [split, List.head?_cons]
    by_cases kept : latest < nowhere.toNat
    · rw [indexed.head_eq _ (hash_lt data chain.next), head, indexed.walk_eq attempts before kept,
        reach_eq, split, same]
    · -- What is lost is out of reach, since all that is in reach is kept.
      have ends := indexed.ends_of_lost head (Nat.le_of_not_lt kept)
      rw [walk_of_ends ends, reach_eq, split]
      rw [reach_eq, split] at small
      by_cases far : maxDistance < chain.next - latest
      · rw [filter_of_far data _ far, List.take_nil]
      · cases attempts with
        | zero => rfl
        | succ attempts =>
          rw [List.filter_cons, if_pos (decide_eq_true (Nat.le_of_not_lt far)),
            List.take_succ_cons] at small
          exact absurd (small latest List.mem_cons_self) kept

/-- If something in reach of the next position is lost, so is the latest position with the same hash,
and a search there ends at once. -/
theorem Indexed.ends_of_reached (indexed : Indexed chain data) {attempts : Nat}
    (reached : place ∈ reach data chain.next attempts) (large : nowhere.toNat ≤ place) :
    Ends chain.next (chain.head (hash data chain.next)) := by
  rw [reach_eq] at reached
  have member := (List.mem_filter.mp (List.mem_of_mem_take reached)).1
  rcases split : places data (hash data chain.next) chain.next with _ | ⟨latest, rest⟩
  · rw [split] at member
    exact absurd member List.not_mem_nil
  · obtain ⟨-, -, rfl⟩ := places_of_eq_cons split
    rw [split] at member
    have behind : place ≤ latest := by
      rcases List.mem_cons.mp member with same | earlier
      · exact Nat.le_of_eq same
      · exact Nat.le_of_lt (mem_places.mp earlier).1
    refine indexed.ends_of_lost ?_ (Nat.le_trans large behind)
    rw [split, List.head?_cons]

end Lz4.Block.Chain
