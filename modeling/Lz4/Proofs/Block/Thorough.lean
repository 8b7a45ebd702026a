import Lz4.Block.Thorough
import Lz4.Proofs.Block.Describes

/-!
# Thorough compression is sound

The heads of the chains lead to positions that were indexed (`Lz4.Block.Chain.Ordered`), even where
only the low bits of a position are kept, and following a chain only goes back. So every candidate
lies before the position that is asked for (`Lz4.Block.Chain.fits_of_longest`). The thorough
compressor therefore writes the pieces of a script that describes its input
(`Lz4.Block.Thorough.writes_compress`), on every level.

Whatever happens to an index, once it is reset nothing of that shows: the room that it takes stays
the same (`Lz4.Block.Thorough.reset_scan`).
-/

namespace Lz4.Block

namespace Chain

variable {chain : Chain} {data : Bytes} {pos limit best attempts : Nat} {candidate : UInt32}
  {found : Option Candidate}

/-- No head leads to a position that is not in the index. -/
def Ordered (chain : Chain) : Prop :=
  ∀ hash, chain.head hash ≠ nowhere → (chain.head hash).toNat < chain.next

theorem ordered_reset (chain : Chain) : chain.reset.Ordered := by
  intro hash held
  rw [head, reset, Array.getD_eq_getD_getElem?, Array.getElem?_map] at held
  cases present : chain.heads[hash]? <;> rw [present] at held <;> exact absurd rfl held

@[simp] theorem next_insertNext (chain : Chain) (data : Bytes) :
    (chain.insertNext data).next = chain.next + 1 := rfl

theorem head_insertNext (chain : Chain) (data : Bytes) (slot : Nat) :
    (chain.insertNext data).head slot = chain.next.toUInt32 ∨
      (chain.insertNext data).head slot = chain.head slot := by
  simp only [head, insertNext, Array.getD_eq_getD_getElem?, Array.getElem?_setIfInBounds]
  by_cases same : hash data chain.next = slot
  · subst same
    by_cases inside : hash data chain.next < chain.heads.size
    · left
      simp [inside]
    · right
      simp [inside]
  · right
    simp [same]

/-- The low 32 bits of a position are no later position. -/
theorem toNat_toUInt32_le (place : Nat) : place.toUInt32.toNat ≤ place := Nat.mod_le _ _

theorem ordered_insertNext (ordered : chain.Ordered) : (chain.insertNext data).Ordered := by
  intro slot held
  rw [next_insertNext]
  rcases head_insertNext chain data slot with latest | earlier
  · rw [latest]
    exact Nat.lt_succ_of_le (toNat_toUInt32_le chain.next)
  · rw [earlier] at held ⊢
    exact Nat.lt_succ_of_lt (ordered slot held)

theorem ordered_insertMany (data : Bytes) (count : Nat) (ordered : chain.Ordered) :
    (chain.insertMany data count).Ordered ∧
      (chain.insertMany data count).next = chain.next + count := by
  induction count generalizing chain with
  | zero => exact ⟨ordered, rfl⟩
  | succ count ih =>
    obtain ⟨after, next⟩ := ih (ordered_insertNext ordered)
    refine ⟨after, ?_⟩
    rw [insertMany, next, next_insertNext]
    omega

/-- With all positions before `target` in the index, the heads are before `target`. -/
theorem ordered_insertUpTo (data : Bytes) {target : Nat} (ordered : chain.Ordered)
    (behind : chain.next ≤ target) :
    (chain.insertUpTo data target).Ordered ∧ (chain.insertUpTo data target).next = target := by
  obtain ⟨after, next⟩ := ordered_insertMany data (target - chain.next) ordered
  refine ⟨after, ?_⟩
  rw [insertUpTo, next]
  omega

@[simp] theorem reset_reset (chain : Chain) : chain.reset.reset = chain.reset := by
  simp only [reset, Array.map_map, Function.comp_def]

theorem reset_insertNext (chain : Chain) (data : Bytes) :
    (chain.insertNext data).reset = chain.reset := by
  simp only [reset, insertNext, Array.map_const', Array.size_setIfInBounds]

theorem reset_insertMany (chain : Chain) (data : Bytes) (count : Nat) :
    (chain.insertMany data count).reset = chain.reset := by
  induction count generalizing chain with
  | zero => rfl
  | succ count ih => rw [insertMany, ih, reset_insertNext]

theorem reset_insertUpTo (chain : Chain) (data : Bytes) (target : Nat) :
    (chain.insertUpTo data target).reset = chain.reset :=
  reset_insertMany chain data _

/-- How many bytes before the limit are the same from a position and from an earlier one on. -/
def shared (data : Bytes) (pos limit place : Nat) : Nat :=
  data.commonFront pos limit data place data.size

theorem shared_le (data : Bytes) (pos limit place : Nat) :
    shared data pos limit place ≤ limit - pos :=
  Nat.le_trans (Bytes.agreement_commonFront data pos limit data place data.size).length_le
    (Nat.min_le_left _ _)

/-- How many bytes are counted at a place: none at all when it disagrees on the byte that a better
match than the best so far needs. -/
def counted (data : Bytes) (pos limit best place : Nat) : Nat :=
  if data.byteAt (place + best) == data.byteAt (pos + best) then shared data pos limit place else 0

theorem counted_le (data : Bytes) (pos limit best place : Nat) :
    counted data pos limit best place ≤ shared data pos limit place := by
  rw [counted]
  split
  · exact Nat.le_refl _
  · exact Nat.zero_le _

/-- A place that is better than the best so far is counted in full. -/
theorem counted_of_lt {place : Nat} (longer : best < shared data pos limit place) :
    counted data pos limit best place = shared data pos limit place := by
  have same := (Bytes.agreement_commonFront data pos limit data place data.size).same best longer
  rw [counted, if_pos (beq_iff_eq.mpr same.symm)]

/-- Where a search at a position ends: at no position, or at one that is too far away for a
match. -/
def Ends (pos : Nat) (candidate : UInt32) : Prop :=
  candidate = nowhere ∨ maxDistance < pos - candidate.toNat

instance (pos : Nat) (candidate : UInt32) : Decidable (Ends pos candidate) :=
  inferInstanceAs (Decidable (_ ∨ _))

theorem longestFrom_succ (chain : Chain) (data : Bytes) (pos limit : Nat)
    (found : Option Candidate) (best : Nat) (candidate : UInt32) (attempts : Nat) :
    chain.longestFrom data pos limit found best candidate (attempts + 1) =
      let place := candidate.toNat
      let length := counted data pos limit best place
      let later := if best < length then some ⟨place, length⟩ else found
      if Ends pos candidate then found
      else if decide (best < length) && pos + length == limit then later
      else if chain.link place = 0 then later
      else
        chain.longestFrom data pos limit later (max best length)
          (place - chain.link place).toUInt32 attempts := by
  dsimp only
  change _ = if candidate = nowhere ∨ maxDistance < pos - candidate.toNat then found else _
  rw [ite_or]
  rfl

theorem longestFrom_of_ends (ends : Ends pos candidate) :
    chain.longestFrom data pos limit found best candidate attempts = found := by
  cases attempts with
  | zero => rfl
  | succ attempts =>
    rw [longestFrom_succ]
    exact if_pos ends

theorem longestFrom_of_le (going : ¬ Ends pos candidate)
    (short : counted data pos limit best candidate.toNat ≤ best) :
    chain.longestFrom data pos limit found best candidate (attempts + 1) =
      if chain.link candidate.toNat = 0 then found
      else
        chain.longestFrom data pos limit found best
          (candidate.toNat - chain.link candidate.toNat).toUInt32 attempts := by
  have worse : ¬ best < counted data pos limit best candidate.toNat := Nat.not_lt_of_le short
  simp only [longestFrom_succ, going, worse, decide_false, Bool.false_and, Bool.false_eq_true,
    if_false, Nat.max_eq_left short]

theorem longestFrom_of_lt (going : ¬ Ends pos candidate)
    (longer : best < counted data pos limit best candidate.toNat) :
    chain.longestFrom data pos limit found best candidate (attempts + 1) =
      let length := counted data pos limit best candidate.toNat
      if pos + length = limit then some ⟨candidate.toNat, length⟩
      else if chain.link candidate.toNat = 0 then some ⟨candidate.toNat, length⟩
      else
        chain.longestFrom data pos limit (some ⟨candidate.toNat, length⟩) length
          (candidate.toNat - chain.link candidate.toNat).toUInt32 attempts := by
  simp only [longestFrom_succ, going, longer, decide_true, Bool.true_and, beq_iff_eq, if_true,
    if_false, Nat.max_eq_right (Nat.le_of_lt longer)]

/-- A candidate is an occurrence of the bytes at a position that ends before the limit and is long
enough to be written. -/
structure Fits (data : Bytes) (pos limit : Nat) (candidate : Candidate) : Prop where
  before : candidate.position < pos
  near : pos - candidate.position ≤ maxDistance
  within : pos + candidate.length ≤ limit
  same : ∀ index < candidate.length,
    data.byteAt (pos + index) = data.byteAt (candidate.position + index)
  long : minMatch ≤ candidate.length

/-- A place from which enough bytes agree is a candidate. -/
theorem fits_of_shared {place : Nat} (before : place < pos) (near : pos - place ≤ maxDistance)
    (long : minMatch ≤ shared data pos limit place) :
    Fits data pos limit ⟨place, shared data pos limit place⟩ := by
  have agreement := Bytes.agreement_commonFront data pos limit data place data.size
  have short := shared_le data pos limit place
  refine ⟨before, near, ?_, agreement.same, long⟩
  simp only [minMatch] at long ⊢
  omega

theorem fits_of_longestFrom {result : Candidate}
    (before : candidate ≠ nowhere → candidate.toNat < pos) (large : minMatch - 1 ≤ best)
    (earlier : ∀ earlier, found = some earlier → Fits data pos limit earlier)
    (taken : chain.longestFrom data pos limit found best candidate attempts = some result) :
    Fits data pos limit result := by
  induction attempts generalizing found best candidate with
  | zero => exact earlier result taken
  | succ attempts ih =>
    by_cases ends : Ends pos candidate
    · rw [longestFrom_of_ends ends] at taken
      exact earlier result taken
    · obtain ⟨held, near⟩ := not_or.mp ends
      -- Whatever comes of the candidate, the search goes on where its link leads.
      have onward : ∀ {found best}, minMatch - 1 ≤ best →
          (∀ earlier, found = some earlier → Fits data pos limit earlier) →
          (if chain.link candidate.toNat = 0 then found
            else chain.longestFrom data pos limit found best
              (candidate.toNat - chain.link candidate.toNat).toUInt32 attempts) = some result →
          Fits data pos limit result := by
        intro found best large earlier taken
        split at taken
        · exact earlier result taken
        · refine ih (fun _ => ?_) large earlier taken
          exact Nat.lt_of_le_of_lt (Nat.le_trans (toNat_toUInt32_le _) (Nat.sub_le _ _))
            (before held)
      by_cases longer : best < counted data pos limit best candidate.toNat
      · have full := counted_of_lt (Nat.lt_of_lt_of_le longer (counted_le ..))
        have fits : Fits data pos limit ⟨candidate.toNat, shared data pos limit candidate.toNat⟩ :=
          fits_of_shared (before held) (Nat.le_of_not_lt near)
            (Nat.le_trans (Nat.le_succ_of_pred_le large) (full ▸ longer))
        rw [longestFrom_of_lt ends longer, full] at taken
        dsimp only at taken
        split at taken
        · cases taken
          exact fits
        · exact onward (Nat.le_trans large (full ▸ Nat.le_of_lt longer))
            (fun earlier same => Option.some.inj same ▸ fits) taken
      · rw [longestFrom_of_le ends (Nat.le_of_not_lt longer)] at taken
        exact onward large earlier taken

/-- What is found lies before the position that is asked for, and repeats its bytes. -/
theorem fits_of_longest {attempts : Nat} {result : Candidate} (ordered : chain.Ordered)
    (behind : chain.next ≤ pos) (found : chain.longest data pos limit attempts = some result) :
    Fits data pos limit result := by
  refine fits_of_longestFrom ?_ (Nat.le_refl _) ?_ found
  · intro held
    exact Nat.lt_of_lt_of_le (ordered _ held) behind
  · intro earlier none
    cases none

theorem Fits.occurs {candidate : Candidate}
    (fits : Fits data pos (data.size - lastLiterals) candidate)
    (early : pos + endMargin ≤ data.size) :
    Occurs data pos candidate.position candidate.length := by
  have within := fits.within
  have clear : pos + candidate.length + lastLiterals ≤ data.size := by
    simp only [endMargin, lastLiterals] at early within ⊢
    omega
  exact ⟨fits.before, fits.near, early, clear, fits.same⟩

end Chain

namespace Thorough

variable {input : Bytes} {limit attempts : Nat}

/-- Moving ahead to a longer match keeps to candidates that fit, and to positions where a match may
start, and leaves the index behind the end of the match. -/
theorem fits_of_improve {start improvedStart : Nat} {chosen improvedChoice : Candidate}
    {chain improvedChain : Chain} (fits : Chain.Fits input start limit chosen)
    (early : start + endMargin ≤ input.size) (ordered : chain.Ordered)
    (behind : chain.next ≤ start + 1)
    (improved : improve input limit attempts start chosen chain =
      (improvedStart, improvedChoice, improvedChain)) :
    start ≤ improvedStart ∧ improvedStart + endMargin ≤ input.size ∧
      Chain.Fits input improvedStart limit improvedChoice ∧
      improvedChain.Ordered ∧ improvedChain.next ≤ improvedStart + 1 := by
  fun_induction improve input limit attempts start chosen chain with
  | case1 start chosen chain room after none =>
    obtain ⟨later, next⟩ := Chain.ordered_insertUpTo input ordered behind
    simp only [Prod.mk.injEq] at improved
    obtain ⟨rfl, rfl, rfl⟩ := improved
    exact ⟨Nat.le_refl _, early, fits, later, Nat.le_of_eq next⟩
  | case2 start chosen chain room after better found longer ih =>
    obtain ⟨later, next⟩ := Chain.ordered_insertUpTo input ordered behind
    have betterFits := Chain.fits_of_longest later (Nat.le_of_eq next) found
    obtain ⟨further, rest⟩ :=
      ih betterFits room later (Nat.le_succ_of_le (Nat.le_of_eq next)) improved
    exact ⟨Nat.le_of_succ_le further, rest⟩
  | case3 start chosen chain room after better found shorter =>
    obtain ⟨later, next⟩ := Chain.ordered_insertUpTo input ordered behind
    simp only [Prod.mk.injEq] at improved
    obtain ⟨rfl, rfl, rfl⟩ := improved
    exact ⟨Nat.le_refl _, early, fits, later, Nat.le_of_eq next⟩
  | case4 start chosen chain short =>
    cases improved
    exact ⟨Nat.le_refl _, early, fits, ordered, behind⟩

theorem writes_scan (input : Bytes) (attempts : Nat) {anchor pos : Nat} {chain : Chain}
    (onward : anchor ≤ pos) (within : anchor ≤ input.size) (ordered : chain.Ordered)
    (behind : chain.next ≤ pos) :
    Writes input anchor fun sink => (scan input attempts anchor pos chain sink).outcome := by
  by_cases room : pos + endMargin ≤ input.size
  · obtain ⟨indexed, next⟩ := Chain.ordered_insertUpTo input ordered behind
    rcases found : (chain.insertUpTo input pos).longest input pos (input.size - lastLiterals)
      attempts with _ | first
    · have further := writes_scan input attempts (Nat.le_succ_of_le onward) within indexed
        (Nat.le_succ_of_le (Nat.le_of_eq next))
      obtain ⟨script, describes, written⟩ := further
      refine ⟨script, describes, ?_⟩
      intro sink
      dsimp only
      rw [scan, dif_pos room]
      simp only
      split
      · exact written sink
      · rename_i other same
        rw [found] at same
        cases same
    · have firstFits := Chain.fits_of_longest indexed (Nat.le_of_eq next) found
      rcases improved : improve input (input.size - lastLiterals) attempts pos first
        (chain.insertUpTo input pos) with ⟨start, chosen, after⟩
      obtain ⟨ahead, early, fits, later, reached⟩ := fits_of_improve firstFits room indexed
        (Nat.le_succ_of_le (Nat.le_of_eq next)) improved
      have occurs := fits.occurs early
      have long := fits.long
      have further := writes_scan input attempts (Nat.le_refl (start + chosen.length))
        occurs.within later (by simp only [minMatch] at long; omega)
      apply Writes.sequence further (fun script describes =>
        Script.Describes.matched occurs (Nat.le_trans onward ahead) long rfl describes)
      intro sink
      conv => lhs; rw [scan, dif_pos room]
      simp only
      split
      · rename_i none
        rw [found] at none
        cases none
      · rename_i other same
        rw [found] at same
        cases same
        simp only [improved]
        split <;> rfl
  · apply Writes.last within
    intro sink
    rw [scan, dif_neg room]
    rfl
termination_by input.size - pos
decreasing_by
  all_goals simp only [endMargin, minMatch] at *; omega

theorem reset_improve {start improvedStart : Nat} {chosen improvedChoice : Candidate}
    {chain improvedChain : Chain}
    (improved : improve input limit attempts start chosen chain =
      (improvedStart, improvedChoice, improvedChain)) : improvedChain.reset = chain.reset := by
  fun_induction improve input limit attempts start chosen chain with
  | case1 start chosen chain | case3 start chosen chain =>
    simp only [Prod.mk.injEq] at improved
    obtain ⟨-, -, rfl⟩ := improved
    exact chain.reset_insertUpTo input _
  | case2 start chosen chain room after better found longer ih =>
    rw [ih improved]
    exact chain.reset_insertUpTo input _
  | case4 start chosen chain short =>
    cases improved
    rfl

/-- An index that a block was compressed with is reset to what it would have been reset to
before. -/
theorem reset_scan (input : Bytes) (attempts anchor pos : Nat) (chain : Chain) (sink : Sink) :
    (scan input attempts anchor pos chain sink).table.reset = chain.reset := by
  fun_induction scan input attempts anchor pos chain sink with
  | case1 anchor pos chain sink room limit indexed none ih =>
    rw [ih]
    exact chain.reset_insertUpTo input pos
  | case2 anchor pos chain sink room limit indexed first found start chosen after improved back next
      literals taken written ih =>
    rw [ih, reset_improve improved]
    exact chain.reset_insertUpTo input pos
  | case3 anchor pos chain sink room limit indexed first found start chosen after improved =>
    rw [reset_improve improved]
    exact chain.reset_insertUpTo input pos
  | case4 => rfl

/-- The thorough compressor writes a script of its input, whatever its index was used for before. -/
theorem writes_compressWith {cursor : Nat} (chain : Chain) (level : Int)
    (within : cursor ≤ input.size) :
    Writes input cursor fun sink => (compressWith chain input cursor level sink).outcome :=
  writes_scan input (depth level) (Nat.le_refl cursor) within chain.ordered_reset
    (Nat.zero_le cursor)

/-- The thorough compressor writes a script of its input. -/
theorem writes_compress {cursor : Nat} (level : Int) (within : cursor ≤ input.size) :
    Writes input cursor (compress input cursor level) :=
  writes_compressWith .empty level within

end Thorough

end Lz4.Block
