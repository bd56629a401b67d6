import Mathlib
import ByteSlice.Column

/-!
# A column is an array

Any sequence of single and bulk writes, on a column that the constructor made.
`written` says what one operation writes to an id, `lastWritten` what a sequence
wrote to it last; `column_writes_array` is the run theorem.  `Built` names the
columns that such sequences reach, with arbitrary values written.
-/

namespace ByteSlice

open Foundation

/-- The write operations of a column. -/
inductive ColumnWrite
  | setTuple (id : Nat) (value : WordUnit)
  | bulkLoadArray (codes : Nat → WordUnit) (num pos : Nat)

namespace ColumnWrite

def exec (c : Column) : ColumnWrite → Option Column
  | .setTuple id value => c.setTuple id value
  | .bulkLoadArray codes num pos => c.bulkLoadArray codes num pos

/-- The ids written are ids of a column of `n` tuples. -/
def InRange (n : Nat) : ColumnWrite → Prop
  | .setTuple id _ => id < n
  | .bulkLoadArray _ num pos => pos + num ≤ n

theorem InRange.mono {n m : Nat} {op : ColumnWrite} (h : op.InRange n) (hle : n ≤ m) :
    op.InRange m := by
  cases op with
  | setTuple id value => exact Nat.lt_of_lt_of_le h hle
  | bulkLoadArray codes num pos => exact Nat.le_trans h hle

/-- The value that an operation writes to an id. -/
def written (id : Nat) : ColumnWrite → Option WordUnit
  | .setTuple id' value => if id' = id then some value else none
  | .bulkLoadArray codes num pos =>
      if pos ≤ id ∧ id < pos + num then some (codes (id - pos)) else none

/-- The operation on contents that keep `bits` bits of each value. -/
def onContent (bits : Nat) (content : Nat → Nat) : ColumnWrite → Nat → Nat
  | .setTuple id value => Function.update content id (value.toNat % 2 ^ bits)
  | .bulkLoadArray codes num pos => Column.loaded codes num pos bits content

/-- The value that a sequence of operations writes to an id last. -/
def lastWritten (id : Nat) (ops : List ColumnWrite) : Option WordUnit :=
  ops.foldl (fun last op => (op.written id).or last) none

theorem onContent_eq (bits : Nat) (content : Nat → Nat) (op : ColumnWrite) (id : Nat) :
    op.onContent bits content id =
      ((op.written id).map fun value => value.toNat % 2 ^ bits).getD (content id) := by
  cases op with
  | setTuple id' value =>
      have hwritten : (setTuple id' value).written id =
          if id' = id then some value else none := rfl
      show Function.update content id' (value.toNat % 2 ^ bits) id = _
      rw [hwritten]
      by_cases hid : id' = id
      · subst hid
        rw [Function.update_self, if_pos rfl]
        rfl
      · rw [Function.update_of_ne (fun h => hid h.symm), if_neg hid]
        rfl
  | bulkLoadArray codes num pos =>
      have hwritten : (bulkLoadArray codes num pos).written id =
          if pos ≤ id ∧ id < pos + num then some (codes (id - pos)) else none := rfl
      show Column.loaded codes num pos bits content id = _
      rw [hwritten]
      unfold Column.loaded
      by_cases hin : pos ≤ id ∧ id < pos + num
      · rw [if_pos hin, if_pos hin]
        rfl
      · rw [if_neg hin, if_neg hin]
        rfl

/-- The content of an id after a sequence of writes is the last value written to
it, where there is one. -/
theorem foldl_onContent_eq (bits : Nat) (content : Nat → Nat) (ops : List ColumnWrite)
    (id : Nat) :
    ops.foldl (onContent bits) content id =
      ((lastWritten id ops).map fun value => value.toNat % 2 ^ bits).getD (content id) := by
  induction ops using List.reverseRecOn with
  | nil => rfl
  | append_singleton ops op ih =>
      unfold lastWritten
      rw [List.foldl_append, List.foldl_append]
      show onContent bits (ops.foldl (onContent bits) content) op id =
        (((op.written id).or (lastWritten id ops)).map _).getD _
      rw [onContent_eq, ih]
      cases op.written id with
      | none => rfl
      | some value => rfl

end ColumnWrite

namespace Column

variable {c : Column} {kind : BlockKind} {n : Nat} {content : Nat → Nat}

/-- The step lemma: every write in range succeeds and acts on the content. -/
theorem Stores.exists_exec (h : Stores c kind n content) (op : ColumnWrite)
    (hop : op.InRange n) :
    ∃ c', op.exec c = some c' ∧ Stores c' kind n (op.onContent kind.bits content) := by
  cases op with
  | setTuple id value => exact h.exists_setTuple hop value
  | bulkLoadArray codes num pos => exact h.exists_bulkLoadArray codes hop

/-- The run lemma. -/
theorem Stores.exists_runOps (h : Stores c kind n content) {ops : List ColumnWrite}
    (hops : ∀ op ∈ ops, op.InRange n) :
    ∃ c', runOps ColumnWrite.exec c ops = some c' ∧
      Stores c' kind n (ops.foldl (ColumnWrite.onContent kind.bits) content) :=
  runOps_simulates (fun c content => Stores c kind n content)
    (fun _ _ op hc (hop : op.InRange n) => hc.exists_exec op hop) h
    (admissibleRun_of_forall (fun op hop _ => hops op hop) content)

/-- The columns of `n` tuples that the constructor and writes in range reach. -/
def Built (type : ColumnType) (bitWidth n : Nat) (c : Column) : Prop :=
  ∃ start ops, new type bitWidth n = some start ∧ (∀ op ∈ ops, ColumnWrite.InRange n op) ∧
    runOps ColumnWrite.exec start ops = some c

theorem built_new {type : ColumnType} {bitWidth n : Nat} {c : Column}
    (hnew : new type bitWidth n = some c) : Built type bitWidth n c := by
  refine ⟨c, [], hnew, fun op hop => ?_, rfl⟩
  exact absurd hop List.not_mem_nil

/-- One more write in range reaches another such column. -/
theorem Built.exec {type : ColumnType} {bitWidth n : Nat} {c c' : Column}
    (h : Built type bitWidth n c) (op : ColumnWrite) (hop : op.InRange n)
    (hexec : op.exec c = some c') : Built type bitWidth n c' := by
  obtain ⟨start, ops, hnew, hops, hrun⟩ := h
  refine ⟨start, ops ++ [op], hnew, fun op' hmem => ?_, ?_⟩
  · rcases List.mem_append.mp hmem with hold | hlast
    · exact hops op' hold
    · rw [List.mem_singleton.mp hlast]
      exact hop
  · rw [runOps_append, hrun, Option.bind_some, runOps_cons, hexec]
    rfl

/-- Writes leave the type and the width alone. -/
theorem type_eq_of_exec {c c' : Column} {op : ColumnWrite} (hexec : op.exec c = some c') :
    c'.type = c.type ∧ c'.bitWidth = c.bitWidth := by
  cases op with
  | setTuple id value =>
      obtain ⟨blocks, _, rfl⟩ := Option.map_eq_some_iff.mp hexec
      exact ⟨rfl, rfl⟩
  | bulkLoadArray codes num pos =>
      obtain ⟨blocks, _, rfl⟩ := Option.map_eq_some_iff.mp hexec
      exact ⟨rfl, rfl⟩

/-- A column that was built for at least one tuple can create blocks. -/
theorem Built.exists_blockKind {type : ColumnType} {bitWidth n : Nat} {c : Column}
    (h : Built type bitWidth n c) (hn : 0 < n) :
    ∃ kind, blockKind c.type c.bitWidth = some kind := by
  obtain ⟨start, ops, hnew, hops, hrun⟩ := h
  have hinside : AdmissibleRun (fun (_ : Unit) op => ColumnWrite.InRange n op)
      (fun _ _ => ()) () ops := admissibleRun_of_forall (fun op hop _ => hops op hop) ()
  have hsame : c.type = start.type ∧ c.bitWidth = start.bitWidth :=
    runOps_invariant (fun c _ => c.type = start.type ∧ c.bitWidth = start.bitWidth) ⟨rfl, rfl⟩
      (fun mid next _ op hmid _ hexec =>
        ⟨(type_eq_of_exec hexec).1.trans hmid.1, (type_eq_of_exec hexec).2.trans hmid.2⟩)
      hinside hrun
  rw [hsame.1, hsame.2, blockKind_of_new hnew]
  exact exists_blockKind_of_new hnew hn

theorem Stores.of_runOps (h : Stores c kind n content) {ops : List ColumnWrite}
    (hops : ∀ op ∈ ops, op.InRange n) {c' : Column}
    (hrun : runOps ColumnWrite.exec c ops = some c') : Stores c' kind n c'.tuple := by
  obtain ⟨c'', hrun', hstores⟩ := h.exists_runOps hops
  obtain rfl : c' = c'' := Option.some.inj (hrun.symm.trans hrun')
  exact hstores.congr fun id hid => (hstores.tuple_eq id hid).symm

/-- All columns built for one type and width hold blocks of one class. -/
theorem exists_kind_of_built (type : ColumnType) (bitWidth : Nat) :
    ∃ kind, (∀ kind', blockKind type bitWidth = some kind' → kind' = kind) ∧
      ∀ n c, Built type bitWidth n c → Stores c kind n c.tuple := by
  cases hkind : blockKind type bitWidth with
  | some kind =>
      refine ⟨kind, fun kind' h => (Option.some.inj h).symm, ?_⟩
      rintro n c ⟨start, ops, hnew, hops, hrun⟩
      exact (stores_of_new hkind hnew).of_runOps hops hrun
  | none =>
      refine ⟨.naive .uint8, fun kind' h => by contradiction, ?_⟩
      rintro n c ⟨start, ops, hnew, hops, hrun⟩
      -- no block can be created, so the column is empty
      have hzero : n = 0 := by
        by_contra hpos
        obtain ⟨kind, hkind'⟩ := exists_blockKind_of_new hnew (by omega)
        rw [hkind] at hkind'
        contradiction
      subst hzero
      rw [new_zero] at hnew
      have hstart : Stores start (.naive .uint8) 0 start.tuple := by
        rw [← Option.some.inj hnew]
        refine ⟨rfl, ⟨by simp, fun i block h => ?_⟩, ?_, fun _ _ => rfl⟩
        · simp at h
        · intro block h
          simp at h
      exact hstart.of_runOps hops hrun

/-- A column that was built stores what it returns. -/
theorem Built.stores {type : ColumnType} {bitWidth n : Nat} {c : Column} {kind : BlockKind}
    (h : Built type bitWidth n c) (hkind : blockKind type bitWidth = some kind) :
    Stores c kind n c.tuple := by
  obtain ⟨kind', hunique, hstores⟩ := exists_kind_of_built type bitWidth
  rw [hunique kind hkind]
  exact hstores n c h

end Column

/-- **A column is an array under single and bulk writes.**  On a column that the
constructor made for `n` tuples, every sequence of writes in range succeeds:
`none`, the outcome of an access to a missing block, does not occur.  Afterwards an
id that was written holds the last value written to it, reduced to the bits that
the column keeps; and every bulk load in the sequence left the column that its
single writes would have left. -/
theorem column_writes_array (type : ColumnType)
    (htype : type = .kNaive ∨ type = .kByteSlicePadRight) (bitWidth : Nat)
    (hpos : 1 ≤ bitWidth) (hle : bitWidth ≤ 32) (n : Nat) (ops : List ColumnWrite)
    (hops : ∀ op ∈ ops, op.InRange n) :
    ∃ start c, Column.new type bitWidth n = some start ∧
      runOps ColumnWrite.exec start ops = some c ∧
      (∀ id, id < n → ∀ value, ColumnWrite.lastWritten id ops = some value →
        ∃ result, c.getTuple id = some result ∧
          result.toNat = value.toNat % 2 ^ Column.keptBits type bitWidth) ∧
      ∀ before codes num pos after, ops = before ++ .bulkLoadArray codes num pos :: after →
        ∃ mid next, runOps ColumnWrite.exec start before = some mid ∧
          mid.bulkLoadArray codes num pos = some next ∧
          mid.setTuples codes num pos = some next := by
  obtain ⟨kind, hkind, hbits⟩ := Column.exists_blockKind htype hpos hle
  obtain ⟨start, hnew, hstart⟩ := Column.exists_new hkind n
  obtain ⟨c, hrun, hc⟩ := hstart.exists_runOps hops
  refine ⟨start, c, hnew, hrun, fun id hid value hvalue => ?_, ?_⟩
  · obtain ⟨result, hresult, heq⟩ := hc.getTuple_eq hid
    refine ⟨result, hresult, ?_⟩
    rw [heq, ColumnWrite.foldl_onContent_eq, hvalue, hbits]
    rfl
  · rintro before codes num pos after rfl
    have hbefore : ∀ op ∈ before, op.InRange n := fun op hop =>
      hops op (List.mem_append_left _ hop)
    have hrange : pos + num ≤ n := hops (.bulkLoadArray codes num pos)
      (List.mem_append_right _ List.mem_cons_self)
    obtain ⟨mid, hmid, hstores⟩ := hstart.exists_runOps hbefore
    obtain ⟨next, hnext, _⟩ := hstores.exists_setTuples codes hrange
    refine ⟨mid, next, hmid, ?_, hnext⟩
    rw [hstores.bulkLoadArray_eq codes hrange]
    exact hnext

/-- Three tuples of eleven bits in byte slices: a bulk load of `5, 6`, then a write
of `2^11 + 7` over the second. -/
theorem column_writes_array_three :
    ∃ start c result, Column.new .kByteSlicePadRight 11 3 = some start ∧
      runOps ColumnWrite.exec start
        [.bulkLoadArray (fun k => BitVec.ofNat 64 (5 + k)) 2 0, .setTuple 1 2055#64] = some c ∧
      c.getTuple 1 = some result ∧ result.toNat = 7 := by
  obtain ⟨start, c, hnew, hrun, hlast, _⟩ := column_writes_array .kByteSlicePadRight
    (Or.inr rfl) 11 (by omega) (by omega) 3
    [.bulkLoadArray (fun k => BitVec.ofNat 64 (5 + k)) 2 0, .setTuple 1 2055#64]
    (by simp [ColumnWrite.InRange])
  obtain ⟨result, hresult, heq⟩ := hlast 1 (by omega) 2055#64 rfl
  exact ⟨start, c, result, hnew, hrun, hresult, heq⟩

end ByteSlice
