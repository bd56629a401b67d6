import Mathlib
import ByteSlice.BitVectorIterator
import ByteSlice.Foundation.WordSweep

/-!
# Updates between the calls of `Next`

`BitVectorIterator` keeps a pointer to its bit vector and copies the positions of one
word at a time, so an update of the vector between two calls is seen or not, by where
the cursor is.  This module says which: every word is seen as it is in one definite
call, the first one after the last position returned from an earlier word.

The updates are arbitrary.  `bvs k` is the vector during call `k`; all that is asked is
what the operations keep, its size, the cut into blocks and the clear tails.
-/

namespace ByteSlice

open Foundation

namespace BitVectorIterator

variable {bv bv' : BitVector} {num : Nat} {content content' : Nat → Bool}
  {it out : BitVectorIterator}

/-- The number of words before the cursor. -/
def wordIndex (it : BitVectorIterator) : Nat :=
  it.curBlockId * kNumWordsPerBlock + it.curWordId

theorem upcoming_eq (hcursor : CursorAt bv it) :
    it.upcoming num content = positionsFrom content (kNumWordBits * it.wordIndex) num := by
  unfold upcoming wordIndex
  rw [hcursor.blockOffset_eq, kNumTuplesPerBlock_eq, kNumWordsPerBlock_eq, kNumWordBits_eq]
  congr 1
  omega

/-- A cursor is as valid for another vector of the same size. -/
theorem CursorAt.of_holds (hcursor : CursorAt bv it) (h : bv.Holds num content)
    (h' : bv'.Holds num content') : CursorAt bv' it := by
  obtain ⟨block, hblock, hword⟩ := hcursor.exists_block
  have hlt : it.curBlockId < bv'.blocks.length := by
    rw [h'.laidOut.length_blocks, h'.num_eq, ← h.num_eq, ← h.laidOut.length_blocks]
    exact (List.getElem?_eq_some_iff.mp hblock).1
  have hblock' := List.getElem?_eq_getElem hlt
  refine ⟨hcursor.curBlock_eq, hcursor.blockOffset_eq, _, hblock', ?_⟩
  have hsize : bv'.blocks[it.curBlockId].num = block.num := by
    rw [h'.laidOut.size_block _ _ hblock', h.laidOut.size_block _ _ hblock, h.num_eq, h'.num_eq]
  rw [BitVectorBlock.numWordUnits_congr hsize]
  exact hword

/-- The word that the search returns has just been passed. -/
theorem curWordId_pos_of_findWord {word : WordUnit} (hfind : findWord bv it = some (some word, out)) :
    1 ≤ out.curWordId := by
  fun_induction findWord bv it with
  | case1 it hvalid => contradiction
  | case2 it mid hvalid => simp at hfind
  | case3 it mid hvalid hread => contradiction
  | case4 it mid hvalid next hread ih => exact ih hfind
  | case5 it mid hvalid word' next hread hzero =>
      obtain rfl := (Prod.mk.inj (Option.some.inj hfind)).2
      obtain ⟨_, _, hword⟩ := Option.bind_eq_some_iff.mp hread
      split at hword
      · rw [← (Prod.mk.inj (Option.some.inj hword)).2]
        exact Nat.le_add_left 1 _
      · contradiction

/-- A call that refills the stack fills it from the word just before the cursor. -/
theorem items_of_next (hone : it.stackTop = 1) (hnext : next bv it = some (true, out))
    (hout : CursorAt bv out) : ∀ p ∈ out.items, p / kNumWordBits + 1 = out.wordIndex := by
  have hpopped : sizeSub it.stackTop 1 = 0 := by
    rw [hone]
    rfl
  unfold next at hnext
  dsimp only at hnext
  rw [if_pos hpopped] at hnext
  obtain ⟨⟨_ | word, mid⟩, hfind, hrest⟩ := Option.bind_eq_some_iff.mp hnext
  · simp at hrest
  · obtain ⟨filled, hpush, hfilled⟩ := Option.map_eq_some_iff.mp hrest
    obtain rfl := (Prod.mk.inj hfilled).2
    have htop : mid.stackTop = 0 := (stackTop_findWord hfind).trans hpopped
    have hpos := curWordId_pos_of_findWord hfind
    have hroom : mid.stackTop + (kNumWordBits - 1) < kNumWordBits := by
      rw [htop]
      decide
    obtain ⟨stack, stackTop, hpush', _, hitems⟩ := exists_pushBits word
      (mid.blockOffset + sizeSub mid.curWordId 1 * kNumWordBits) hroom
    obtain rfl := Option.some.inj (hpush.symm.trans hpush')
    have hempty : mid.items = [] := by
      unfold items
      rw [htop]
      rfl
    intro p hp
    rw [hitems, hempty, List.append_nil] at hp
    obtain ⟨j, hj, rfl⟩ := List.mem_map.mp hp
    have hlt := (mem_positions.mp hj).1
    have hoffset := hout.blockOffset_eq
    show _ = mid.curBlockId * kNumWordsPerBlock + mid.curWordId
    dsimp only at hoffset
    rw [hoffset, sizeSub_of_le hpos, kNumTuplesPerBlock_eq, kNumWordsPerBlock_eq,
      kNumWordBits_eq]
    rw [kNumWordBits_eq] at hlt
    omega

/-! ## A run with updates -/

section

variable {bvs : Nat → BitVector} {contents : Nat → Nat → Bool}

/-- While positions are on the stack, the calls return them, whatever the vector is. -/
theorem yieldsAlong_pops {visited : List Nat} {rest : List Nat} {call : Nat}
    (hpos : 1 ≤ it.stackTop) (htop : it.stackTop ≤ kNumWordBits) (hitems : it.items.tail = rest)
    (hafter : ∀ stackTop, stackTop = 1 →
      YieldsAlong (fun call => next (bvs call)) getPosition (call + rest.length)
        { it with stackTop := stackTop } visited) :
    YieldsAlong (fun call => next (bvs call)) getPosition call it (rest ++ visited) := by
  induction rest generalizing it call with
  | nil =>
      have hlen := congrArg List.length hitems
      rw [List.length_tail, length_items htop, List.length_nil] at hlen
      exact hafter it.stackTop (by omega)
  | cons pos rest ih =>
      obtain ⟨hnext, hitems'⟩ := next_pop (bvs call) hpos htop hitems
      have hle : { it with stackTop := sizeSub it.stackTop 1 }.stackTop ≤ kNumWordBits := by
        show sizeSub it.stackTop 1 ≤ kNumWordBits
        rw [sizeSub_of_le hpos]
        omega
      have hlen := length_items hle
      rw [hitems', List.length_cons] at hlen
      refine ⟨_, hnext, getPosition_eq hle hitems', ih (by omega) hle (by rw [hitems']; rfl) ?_⟩
      intro stackTop hone
      have := hafter stackTop hone
      rw [List.length_cons] at this
      rw [Nat.add_assoc, Nat.add_comm 1]
      exact this

/-- From an iterator whose stack has run empty, the calls return what a sweep from its
word returns.  The induction is on what is left of the vector after the cursor. -/
theorem exists_sweep (h : ∀ call, (bvs call).Holds num (contents call)) {call : Nat}
    (hcursor : CursorAt (bvs call) it) (hone : it.stackTop = 1) :
    ∃ visited, Sweep kNumWordBits num contents call it.wordIndex visited ∧
      YieldsAlong (fun call => next (bvs call)) getPosition call it visited := by
  induction hleft : num - kNumWordBits * it.wordIndex using Nat.strong_induction_on
    generalizing it call with
  | _ left ih =>
      rcases next_refill (h call) hcursor hone with ⟨out, hnext, hnone⟩ |
        ⟨out, pos, rest, hnext, hout, htop, hitems, hsplit⟩
      · rw [upcoming_eq hcursor] at hnone
        exact ⟨[], .done hnone, out, hnext⟩
      · have hword := items_of_next hone hnext hout
        rw [upcoming_eq hcursor, upcoming_eq hout] at hsplit
        obtain ⟨hfrom, hlt, _⟩ := mem_positionsFrom.mp
          (hsplit ▸ List.mem_append_left _ List.mem_cons_self)
        rw [hitems] at hword
        have hpos := hword pos List.mem_cons_self
        have hlast := Nat.lt_mul_div_succ pos kNumWordBits_pos
        rw [hpos] at hlast
        -- the state after the positions of this word have been returned
        have hlater : CursorAt (bvs (call + (pos :: rest).length)) { out with stackTop := 1 } :=
          CursorAt.of_holds ⟨hout.curBlock_eq, hout.blockOffset_eq, hout.exists_block⟩ (h call)
            (h _)
        obtain ⟨visited, hsweep, hyields⟩ :=
          ih (num - kNumWordBits * out.wordIndex) (by omega) hlater rfl rfl
        have hnext' : out.wordIndex = pos / kNumWordBits + 1 := hpos.symm
        refine ⟨(pos :: rest) ++ visited, ?_, out, hnext, getPosition_eq htop hitems, ?_⟩
        · rw [hnext'] at hsplit
          refine .refill (List.cons_ne_nil pos rest) (fun p hp => ?_) hsplit ?_
          · exact Nat.succ_injective ((hword p hp).trans hnext')
          · rw [← hnext']
            exact hsweep
        · have hlen := length_items htop
          rw [hitems, List.length_cons] at hlen
          refine yieldsAlong_pops (by omega) htop (by rw [hitems]; rfl) fun stackTop hone' => ?_
          subst hone'
          rw [Nat.add_assoc, Nat.add_comm 1]
          exact hyields

end

end BitVectorIterator

/-- **Every word is seen in one call.**  An iterator is created on a bit vector of at least
one bit, and the vector is updated between the calls of `Next` in any way that keeps
its size, its cut into blocks and the clear tails.  The calls return true finitely often
and then false, none of them accesses anything out of range, and the positions observed
increase.  A position is among them if and only if its bit is set in the call that
follows the last position of an earlier word.  In particular, when every update is in the
word of the position observed last or before it, they are the positions set at first. -/
theorem iterator_sees_words_once (bvs : Nat → BitVector) (num : Nat) (hnum : 1 ≤ num)
    (hsize : ∀ call, (bvs call).num = num) (hlaid : ∀ call, (bvs call).LaidOut)
    (htail : ∀ call, (bvs call).TailClear) (stack : Vector Nat kNumWordBits) :
    ∃ it visited, BitVectorIterator.new stack (bvs 0) = some it ∧
      YieldsAlong (fun call => BitVectorIterator.next (bvs call)) BitVectorIterator.getPosition
        0 it visited ∧
      visited.Pairwise (· < ·) ∧
      (∀ pos, pos ∈ visited ↔ pos < num ∧
        (bvs (visited.countP (· / kNumWordBits < pos / kNumWordBits))).getBit pos = some true) ∧
      ((∀ i pos, visited[i]? = some pos → ∀ p, p < num → pos / kNumWordBits < p / kNumWordBits →
          (bvs (i + 1)).getBit p = (bvs i).getBit p) →
        ∀ pos, pos ∈ visited ↔ pos < num ∧ (bvs 0).getBit pos = some true) := by
  have h : ∀ call, (bvs call).Holds num (bvs call).bit :=
    fun call => ⟨hsize call, hlaid call, htail call, fun _ _ => rfl⟩
  have hbit : ∀ call pos, pos < num →
      ((bvs call).getBit pos = some true ↔ (bvs call).bit pos = true) := fun call pos hpos => by
    rw [(h call).getBit_eq hpos, Option.some.injEq]
  obtain ⟨it, hnew, hcursor, _⟩ := BitVectorIterator.remaining_new (h 0) hnum stack
  obtain ⟨_, _, rfl⟩ := Option.map_eq_some_iff.mp hnew
  obtain ⟨visited, hsweep, hyields⟩ := BitVectorIterator.exists_sweep h hcursor rfl
  have hstart : (BitVectorIterator.initial stack).wordIndex = 0 := by
    show 0 * kNumWordsPerBlock + 0 = 0
    rw [Nat.zero_mul]
  refine ⟨_, visited, hnew, hyields, hsweep.pairwise_lt kNumWordBits_pos, fun pos => ?_,
    fun hbehind pos => ?_⟩
  · rw [hsweep.mem_iff kNumWordBits_pos pos, Nat.zero_add, hstart, Nat.mul_zero,
      and_iff_right (Nat.zero_le _)]
    exact and_congr_right fun hpos => (hbit _ pos hpos).symm
  · have hall := hsweep.eq_positionsFrom kNumWordBits_pos fun i pos hget p hp hlt => by
      have hsame := hbehind i pos hget p hp hlt
      rw [(h _).getBit_eq hp, (h _).getBit_eq hp] at hsame
      rw [Nat.zero_add, Nat.zero_add]
      exact Option.some.inj hsame
    rw [hall, hstart, Nat.mul_zero, positionsFrom_zero, mem_positions]
    exact and_congr_right fun hpos => (hbit _ pos hpos).symm

/-- A new vector of three bits, whose last bit is cleared after the first call: the word has
been read by then, and all three positions are returned. -/
theorem iterator_sees_words_once_three :
    ∃ bv cleared it visited, BitVector.new 3 = some bv ∧ bv.unsetBit 2 = some cleared ∧
      BitVectorIterator.new (Vector.replicate _ 0) bv = some it ∧
      YieldsAlong (fun call => BitVectorIterator.next (if call = 0 then bv else cleared))
        BitVectorIterator.getPosition 0 it visited ∧
      ∀ pos, pos ∈ visited ↔ pos < 3 := by
  obtain ⟨bv, hbv, hholds⟩ := BitVector.exists_new 3
  obtain ⟨cleared, hcleared, hholds'⟩ := hholds.exists_unsetBit (show 2 < 3 by decide)
  obtain ⟨it, visited, hnew, hyields, _, hmem, _⟩ := iterator_sees_words_once
    (fun call => if call = 0 then bv else cleared) 3 (by decide)
    (fun call => by split; exacts [hholds.num_eq, hholds'.num_eq])
    (fun call => by split; exacts [hholds.laidOut, hholds'.laidOut])
    (fun call => by split; exacts [hholds.tailClear, hholds'.tailClear]) (Vector.replicate _ 0)
  refine ⟨bv, cleared, it, visited, hbv, hcleared, hnew, hyields, fun pos => ?_⟩
  rw [hmem]
  refine and_iff_left_of_imp fun hpos => ?_
  -- no position is in an earlier word than one below three
  have hcount : visited.countP (· / kNumWordBits < pos / kNumWordBits) = 0 := by
    rw [List.countP_eq_zero]
    intro p _
    rw [Nat.div_eq_of_lt (show pos < kNumWordBits by rw [kNumWordBits_eq]; omega)]
    simp
  rw [hcount]
  exact hholds.getBit_eq hpos

end ByteSlice
