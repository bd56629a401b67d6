import Mathlib
import ByteSlice.Foundation.Cells
import ByteSlice.Foundation.Chunking

/-!
# Block lists

A container of `n` items is a list of blocks of `c` items each, the last of
which may be shorter.  `LaidOut` is the layout; `readAt` reads an item through
its block and fails when the block does not exist.  The lemmas say where an item
lives, that a layout survives a write to one block, and what such a write does to
the items.
-/

namespace Foundation

universe u v

variable {β : Type u} {α : Type v} {c n : Nat} {size : β → Nat} {read : β → Nat → α}
  {blocks : List β}

/-- `n` items are cut into blocks: their number, and the size of each. -/
structure LaidOut (c : Nat) (size : β → Nat) (n : Nat) (blocks : List β) : Prop where
  length_blocks : blocks.length = chunkCount c n
  size_block : ∀ (i : Nat) (block : β), blocks[i]? = some block → size block = chunkSize c n i

/-- Read item `id` through its block. -/
def readAt (c : Nat) (read : β → Nat → α) (blocks : List β) (id : Nat) : Option α :=
  (blocks[id / c]?).map fun block => read block (id % c)

theorem readAt_of_block {id : Nat} {block : β} (hblock : blocks[id / c]? = some block) :
    readAt c read blocks id = some (read block (id % c)) := by
  unfold readAt
  rw [hblock, Option.map_some]

/-- An item of a block, seen from the container. -/
theorem readAt_mul_add {i p : Nat} {block : β} (hblock : blocks[i]? = some block) (hp : p < c) :
    readAt c read blocks (i * c + p) = some (read block p) := by
  have hat : blocks[(i * c + p) / c]? = some block := by
    rw [mul_add_div_of_lt hp]
    exact hblock
  rw [readAt_of_block hat, mul_add_mod_of_lt hp]

/-- A write to one item, seen from another: in another block nothing changed, and
in the same block the positions tell the items apart. -/
theorem readAt_set_of_block {id id' : Nat} {old new : β} {value : α}
    (hold : blocks[id / c]? = some old)
    (hread : id' / c = id / c →
      read new (id' % c) = if id' % c = id % c then value else read old (id' % c)) :
    readAt c read (blocks.set (id / c) new) id' =
      if id' = id then some value else readAt c read blocks id' := by
  have hlt := (List.getElem?_eq_some_iff.mp hold).1
  by_cases hi : id' / c = id / c
  · have hold' : blocks[id' / c]? = some old := by
      rw [hi]
      exact hold
    have hnew : (blocks.set (id / c) new)[id' / c]? = some new := by
      rw [hi]
      exact List.getElem?_set_self hlt
    have hsame : id' % c = id % c ↔ id' = id := by
      constructor
      · intro hmod
        rw [← Nat.div_add_mod id' c, ← Nat.div_add_mod id c, hi, hmod]
      · rintro rfl
        rfl
    rw [readAt_of_block hnew, readAt_of_block hold', hread hi]
    by_cases hid : id' = id
    · rw [if_pos hid, if_pos (hsame.mpr hid)]
    · rw [if_neg hid, if_neg (fun hmod => hid (hsame.mp hmod))]
  · rw [if_neg (fun hid => hi (by rw [hid]))]
    unfold readAt
    rw [List.getElem?_set_ne (fun h => hi h.symm)]

/-- A block list assembled block by block. -/
theorem laidOut_of_forLoop_append (hc : 0 < c) (make : (count : Nat) → count < n → β)
    (hsize : ∀ count h, size (make count h) = min c (n - count)) :
    LaidOut c size n
      (forLoop n c hc (fun count h made => made ++ [make count h]) 0 []) := by
  obtain ⟨hlen, hget⟩ := forLoop_append hc make
  refine ⟨hlen, fun i block hblock => ?_⟩
  obtain ⟨h, rfl⟩ := hget i block hblock
  exact hsize _ h

/-- When the number of blocks is right and all blocks but the last are full, the
layout depends on the last block. -/
theorem laidOut_iff_last (hc : 0 < c) (hlen : blocks.length = chunkCount c n)
    (hfull : ∀ i block, i + 1 < blocks.length → blocks[i]? = some block → size block = c)
    {last : β} (hlast : blocks[blocks.length - 1]? = some last) :
    LaidOut c size n blocks ↔ size last = if 0 < n % c then n % c else c := by
  have hlt := (List.getElem?_eq_some_iff.mp hlast).1
  have hsize : chunkSize c n (blocks.length - 1) = if 0 < n % c then n % c else c :=
    chunkSize_last_eq_mod hc (by omega)
  constructor
  · intro h
    rw [h.size_block _ last hlast, hsize]
  · intro h
    refine ⟨hlen, fun i block hblock => ?_⟩
    have hi := (List.getElem?_eq_some_iff.mp hblock).1
    by_cases hinner : i + 1 < blocks.length
    · rw [hfull i block hinner hblock, chunkSize_of_succ_lt hc (by omega)]
    · obtain rfl : i = blocks.length - 1 := by omega
      obtain rfl : last = block := Option.some.inj (hlast.symm.trans hblock)
      rw [h, hsize]

namespace LaidOut

/-- All blocks but the last are full. -/
theorem size_of_succ_lt (hc : 0 < c) (h : LaidOut c size n blocks) {i : Nat} {block : β}
    (hi : i + 1 < blocks.length) (hblock : blocks[i]? = some block) : size block = c := by
  rw [h.size_block i block hblock]
  rw [h.length_blocks] at hi
  exact chunkSize_of_succ_lt hc hi

theorem map_size (h : LaidOut c size n blocks) :
    blocks.map size = (List.range (chunkCount c n)).map (chunkSize c n) := by
  rw [← h.length_blocks]
  refine List.ext_getElem (by rw [List.length_map, List.length_map, List.length_range])
    fun i hi _ => ?_
  rw [List.length_map] at hi
  rw [List.getElem_map, List.getElem_map, List.getElem_range]
  exact h.size_block i _ (List.getElem?_eq_getElem hi)

/-- The sizes of the blocks add up. -/
theorem sum_size (hc : 0 < c) (h : LaidOut c size n blocks) : (blocks.map size).sum = n := by
  have hcover : ¬ chunkCount c n < chunkCount c n := Nat.lt_irrefl _
  rw [lt_chunkCount_iff hc] at hcover
  rw [h.map_size, sum_chunkSize]
  omega

/-- The blocks know how many items they were cut for. -/
theorem eq_of_laidOut {m : Nat} (hc : 0 < c) (h : LaidOut c size n blocks)
    (h' : LaidOut c size m blocks) : n = m :=
  (h.sum_size hc).symm.trans (h'.sum_size hc)

/-- Two lists cut alike agree in the sizes of their blocks. -/
theorem forall₂_size {γ : Type u} {size' : γ → Nat} {blocks' : List γ}
    (h : LaidOut c size n blocks) (h' : LaidOut c size' n blocks') :
    List.Forall₂ (fun block block' => size' block' = size block) blocks blocks' := by
  refine List.forall₂_iff_get.mpr ⟨h.length_blocks.trans h'.length_blocks.symm,
    fun i hi hi' => ?_⟩
  show size' blocks'[i] = size blocks[i]
  rw [h.size_block i _ (List.getElem?_eq_getElem hi),
    h'.size_block i _ (List.getElem?_eq_getElem hi')]

/-- Two lists cut alike have a block at the same index. -/
theorem exists_block_of_block {γ : Type u} {size' : γ → Nat} {blocks' : List γ}
    (h : LaidOut c size n blocks) (h' : LaidOut c size' n blocks') {i : Nat} {block : β}
    (hblock : blocks[i]? = some block) :
    ∃ block', blocks'[i]? = some block' ∧ size' block' = size block := by
  have hlt : i < blocks'.length := by
    rw [h'.length_blocks, ← h.length_blocks]
    exact (List.getElem?_eq_some_iff.mp hblock).1
  have hblock' := List.getElem?_eq_getElem hlt
  refine ⟨_, hblock', ?_⟩
  rw [h'.size_block i _ hblock', h.size_block i _ hblock]

/-- The block of an item exists, and the item lies inside it. -/
theorem exists_block (hc : 0 < c) (h : LaidOut c size n blocks) {id : Nat} (hid : id < n) :
    ∃ block, blocks[id / c]? = some block ∧ id % c < size block := by
  have hlt : id / c < blocks.length := by
    rw [h.length_blocks]
    exact div_lt_chunkCount hc hid
  have hblock := List.getElem?_eq_getElem hlt
  refine ⟨_, hblock, ?_⟩
  rw [h.size_block _ _ hblock]
  exact mod_lt_chunkSize hc hid

/-- No block is larger than a chunk. -/
theorem size_le (h : LaidOut c size n blocks) {i : Nat} {block : β}
    (hblock : blocks[i]? = some block) : size block ≤ c := by
  rw [h.size_block i block hblock]
  exact chunkSize_le c n i

/-- An item of a block is an item of the container. -/
theorem mul_add_lt (h : LaidOut c size n blocks) {i p : Nat} {block : β}
    (hblock : blocks[i]? = some block) (hp : p < size block) : i * c + p < n := by
  rw [h.size_block i block hblock] at hp
  exact mul_add_lt_of_lt_chunkSize hp

/-- The positions of a block are the ids of its chunk. -/
theorem exists_position_iff (hc : 0 < c) (h : LaidOut c size n blocks) {i : Nat} {block : β}
    (hblock : blocks[i]? = some block) {P : Nat → Nat → Prop} :
    (∃ p, p < size block ∧ P p (i * c + p)) ↔ ∃ id, id < n ∧ id / c = i ∧ P (id % c) id := by
  constructor
  · rintro ⟨p, hp, hP⟩
    have hlt : p < c := hp.trans_le (h.size_le hblock)
    refine ⟨i * c + p, h.mul_add_lt hblock hp, mul_add_div_of_lt hlt, ?_⟩
    rw [mul_add_mod_of_lt hlt]
    exact hP
  · rintro ⟨id, hid, rfl, hP⟩
    obtain ⟨block', hblock', hlt⟩ := h.exists_block hc hid
    obtain rfl : block = block' := Option.some.inj (hblock.symm.trans hblock')
    exact ⟨id % c, hlt, by rw [Nat.div_add_mod']; exact hP⟩

/-- Replacing a block by one of the same size keeps the layout. -/
theorem set (h : LaidOut c size n blocks) {i : Nat} {old new : β} (hold : blocks[i]? = some old)
    (hsize : size new = size old) : LaidOut c size n (blocks.set i new) := by
  have hlt := (List.getElem?_eq_some_iff.mp hold).1
  refine ⟨by rw [List.length_set, h.length_blocks], fun j block hblock => ?_⟩
  by_cases hij : i = j
  · subst hij
    rw [List.getElem?_set_self hlt] at hblock
    rw [← Option.some.inj hblock, hsize]
    exact h.size_block i old hold
  · rw [List.getElem?_set_ne hij] at hblock
    exact h.size_block j block hblock

/-- The first blocks are laid out for the items they hold. -/
theorem take (hc : 0 < c) (h : LaidOut c size n blocks) (k : Nat) :
    LaidOut c size (min n (k * c)) (blocks.take k) := by
  refine ⟨?_, fun i block hblock => ?_⟩
  · rw [List.length_take, h.length_blocks]
    refine eq_of_forall_lt_iff fun i => ?_
    rw [lt_chunkCount_iff hc, lt_min_iff, lt_min_iff, lt_chunkCount_iff hc,
      Nat.mul_lt_mul_right hc, and_comm]
  · rw [List.getElem?_take] at hblock
    split at hblock
    · rename_i hi
      have hle : (i + 1) * c ≤ k * c := Nat.mul_le_mul_right c hi
      rw [Nat.succ_mul] at hle
      rw [h.size_block i block hblock]
      unfold chunkSize
      omega
    · contradiction

/-- A write to one item changes that item and no other. -/
theorem readAt_set (hc : 0 < c) (h : LaidOut c size n blocks) {id : Nat} {old new : β} {value : α}
    (hold : blocks[id / c]? = some old)
    (hread : ∀ p, p < size old → read new p = if p = id % c then value else read old p)
    {id' : Nat} (hid' : id' < n) :
    readAt c read (blocks.set (id / c) new) id' =
      if id' = id then some value else readAt c read blocks id' := by
  obtain ⟨block', hblock', hp'⟩ := h.exists_block hc hid'
  refine readAt_set_of_block hold fun hi => hread _ ?_
  rw [hi, hold] at hblock'
  rw [Option.some.inj hblock']
  exact hp'

end LaidOut

end Foundation
