import Mathlib
import ByteSlice.ColumnArray
import ByteSlice.Foundation.DecimalText

/-!
# `Column::LoadTextFile`

The loop writes the numbers of a text to the ids from `0` on, until the column is full or
an extraction fails.  A file is `none` when it cannot be opened, and else its text.

The loop turns out to be a bulk load of the numbers that the text has up to the first
failure; for a text that was printed these are the numbers printed.
-/

namespace ByteSlice

open Foundation

namespace Column

theorem numTuples_of_setTuple {c c' : Column} {id : Nat} {value : WordUnit}
    (h : c.setTuple id value = some c') : c'.numTuples = c.numTuples := by
  obtain ⟨blocks, _, rfl⟩ := Option.map_eq_some_iff.mp h
  rfl

/-- The loop, with the text still to be read. -/
def loadTextLoop (text : List Char) (id : Nat) (c : Column) : Option (Nat × Column) :=
  if id < c.numTuples then
    match extractUnsigned 64 text with
    | none => some (id, c)
    | some (val, rest) =>
        match _hset : c.setTuple id val with
        | none => none
        | some c => loadTextLoop rest (id + 1) c
  else some (id, c)
termination_by c.numTuples - id
decreasing_by
  rw [numTuples_of_setTuple _hset]
  omega

/-- `LoadTextFile`, which returns `-1` when the file cannot be opened. -/
def loadTextFile (file : Option (List Char)) (c : Column) : Option (Nat × Column) :=
  match file with
  | none => some (sizeSub 0 1, c)
  | some text => loadTextLoop text 0 c

theorem loadTextLoop_of_le (text : List Char) {id : Nat} {c : Column} (h : c.numTuples ≤ id) :
    loadTextLoop text id c = some (id, c) := by
  rw [loadTextLoop, if_neg (by omega)]

theorem loadTextLoop_of_none {text : List Char} {id : Nat} {c : Column}
    (h : extractUnsigned 64 text = none) : loadTextLoop text id c = some (id, c) := by
  rw [loadTextLoop]
  split
  · rw [h]
  · rfl

theorem loadTextLoop_of_some {text rest : List Char} {id : Nat} {c c' : Column} {val : WordUnit}
    (hid : id < c.numTuples) (h : extractUnsigned 64 text = some (val, rest))
    (hset : c.setTuple id val = some c') :
    loadTextLoop text id c = loadTextLoop rest (id + 1) c' := by
  rw [loadTextLoop, if_pos hid, h]
  dsimp only
  split
  · simp_all
  · rename_i c'' hset'
    rw [Option.some.inj (hset'.symm.trans hset)]

variable {c start : Column} {kind : BlockKind} {n : Nat} {content : Nat → Nat}

namespace Stores

theorem of_setTuples (hstart : Stores start kind n content) {codes : Nat → WordUnit}
    {count : Nat} (hcount : count ≤ n) (hc : start.setTuples codes count 0 = some c) :
    Stores c kind n (loaded codes count 0 kind.bits content) := by
  obtain ⟨c', hc', hstores⟩ := hstart.exists_setTuples codes (show 0 + count ≤ n by omega)
  rw [Option.some.inj (hc.symm.trans hc')]
  exact hstores

/-- The loop goes on from where single writes of the first numbers have come.  The induction
is on the room left; the numbers still in the text are the later ones. -/
theorem exists_loadTextLoop (hstart : Stores start kind n content) (values : List WordUnit)
    {text : List Char} {id : Nat} (hid : id ≤ n) (hlen : id ≤ values.length)
    (hrest : extractAll 64 text = values.drop id)
    (hc : start.setTuples (values.getD · 0#64) id 0 = some c) :
    ∃ c', loadTextLoop text id c = some (min n values.length, c') ∧
      start.setTuples (values.getD · 0#64) (min n values.length) 0 = some c' := by
  induction hleft : n - id generalizing text id c with
  | zero =>
      have hstores := hstart.of_setTuples hid hc
      have hcount : min n values.length = id := by omega
      rw [hcount]
      exact ⟨c, loadTextLoop_of_le text (by rw [hstores.num_eq]; omega), hc⟩
  | succ left ih =>
      have hstores := hstart.of_setTuples hid hc
      cases hnext : extractUnsigned 64 text with
      | none =>
          -- the text is used up, so all its numbers have been written
          rw [extractAll_of_none hnext] at hrest
          have hnone := List.drop_eq_nil_iff.mp hrest.symm
          have hcount : min n values.length = id := by omega
          rw [hcount]
          exact ⟨c, loadTextLoop_of_none hnext, hc⟩
      | some next =>
          obtain ⟨val, rest⟩ := next
          rw [extractAll_of_some hnext] at hrest
          have hlt : id < values.length := by
            by_contra hge
            rw [List.drop_eq_nil_of_le (by omega)] at hrest
            contradiction
          rw [List.drop_eq_getElem_cons hlt] at hrest
          obtain ⟨hval, hrest'⟩ := List.cons.inj hrest
          have hcode : values.getD id 0#64 = val := by
            rw [List.getD_eq_getElem _ _ hlt, hval]
          obtain ⟨c', hset, _⟩ := hstores.exists_setTuple (show id < n by omega) val
          have hc' : start.setTuples (values.getD · 0#64) (id + 1) 0 = some c' := by
            unfold setTuples at hc ⊢
            rw [List.range_succ, runOps_append, hc, Option.bind_some, runOps_cons, Nat.zero_add]
            dsimp only
            rw [hcode, hset]
            rfl
          rw [loadTextLoop_of_some (by rw [hstores.num_eq]; omega) hnext hset]
          exact ih (by omega) hlt hrest' hc' (by omega)

/-- The loop is the bulk load of the numbers of the text, as many as there is room for. -/
theorem exists_loadTextFile (h : Stores c kind n content) (text : List Char) :
    let values := extractAll 64 text
    ∃ c', c.loadTextFile (some text) = some (min n values.length, c') ∧
      c.bulkLoadArray (values.getD · 0#64) (min n values.length) 0 = some c' ∧
      Stores c' kind n
        (loaded (values.getD · 0#64) (min n values.length) 0 kind.bits content) := by
  intro values
  have hle : min n values.length ≤ n := Nat.min_le_left _ _
  obtain ⟨c', hload, hset⟩ := exists_loadTextLoop h values (Nat.zero_le n) (Nat.zero_le _)
    (show extractAll 64 text = values.drop 0 from rfl)
    (show c.setTuples _ 0 0 = some c from rfl)
  refine ⟨c', hload, ?_, h.of_setTuples hle hset⟩
  rw [h.bulkLoadArray_eq _ (show 0 + min n values.length ≤ n by omega), hset]

end Stores

end Column

/-- **`LoadTextFile` is a bulk load of what the text says.**  On every column that
construction and writes reach and for every text, the loop succeeds, returns the number of
tuples it has written, and leaves the column that `BulkLoadArray` makes of the numbers up to
the first failure of an extraction, as many as there is room for.  When the file cannot be
opened the column is unchanged. -/
theorem loadTextFile_bulkLoadArray (type : ColumnType) (bitWidth n : Nat) (c : Column)
    (hc : c.Built type bitWidth n) :
    c.loadTextFile none = some (2 ^ 64 - 1, c) ∧
    ∀ text, ∃ c', c.bulkLoadArray ((extractAll 64 text).getD · 0#64)
        (min n (extractAll 64 text).length) 0 = some c' ∧
      c.loadTextFile (some text) = some (min n (extractAll 64 text).length, c') := by
  obtain ⟨kind, _, hstores⟩ := Column.exists_kind_of_built type bitWidth
  refine ⟨rfl, fun text => ?_⟩
  obtain ⟨c', hload, hbulk, _⟩ := (hstores n c hc).exists_loadTextFile text
  exact ⟨c', hbulk, hload⟩

/-- The text `-1 x 2` fails at its second word, so one number is written. -/
theorem loadTextFile_bulkLoadArray_one :
    ∃ c c', Column.new .kNaive 8 3 = some c ∧
      c.loadTextFile (some ['-', '1', ' ', 'x', ' ', '2']) = some (1, c') ∧
      c.bulkLoadArray ([-1#64].getD · 0#64) 1 0 = some c' := by
  have hkind : Column.blockKind .kNaive 8 = some (.naive .uint8) := rfl
  obtain ⟨c, hnew, _⟩ := Column.exists_new hkind 3
  obtain ⟨c', hbulk, hload⟩ := (loadTextFile_bulkLoadArray .kNaive 8 3 c
    (Column.built_new hnew)).2 ['-', '1', ' ', 'x', ' ', '2']
  have hvalues : extractAll 64 ['-', '1', ' ', 'x', ' ', '2'] = [-1#64] := by
    rw [extractAll_of_some (show extractUnsigned 64 ['-', '1', ' ', 'x', ' ', '2'] =
      some (-1#64, [' ', 'x', ' ', '2']) by decide), extractAll_of_none (by decide)]
  rw [hvalues] at hbulk hload
  exact ⟨c, c', hnew, hload, hbulk⟩

/-- **Printed codes come back.**  Codes printed one after another with white space behind
each are loaded, as many as there is room for, into whatever column construction and writes
in range have made; the other tuples keep their values.  Behind them stands what no
extraction reads, such as the end of the file, or the column is full by then. -/
theorem loadTextFile_round_trip (type : ColumnType) (bitWidth n : Nat) (c : Column)
    (hc : c.Built type bitWidth n) (items : List (WordUnit × List Char))
    (hspace : ∀ item ∈ items, item.2 ≠ [] ∧ ∀ char ∈ item.2, isSpace char = true)
    (rest : List Char) (hrest : extractUnsigned 64 rest = none ∨ n ≤ items.length) :
    ∃ c', c.loadTextFile (some (items.flatMap (fun item => printed item.1 ++ item.2) ++ rest)) =
        some (min n items.length, c') ∧
      ∀ id, id < n → ∃ result, c'.getTuple id = some result ∧
        result.toNat = ((items[id]?).map fun item =>
          item.1.toNat % 2 ^ Column.keptBits type bitWidth).getD (c.tuple id) := by
  obtain ⟨kind, hunique, hstores⟩ := Column.exists_kind_of_built type bitWidth
  obtain ⟨c', hload, _, hc'⟩ := (hstores n c hc).exists_loadTextFile
    (items.flatMap (fun item => printed item.1 ++ item.2) ++ rest)
  rw [extractAll_printed items hspace rest] at hload hc'
  have hcount : min n (items.map Prod.fst ++ extractAll 64 rest).length = min n items.length := by
    rw [List.length_append, List.length_map]
    rcases hrest with hnone | hfull
    · rw [extractAll_of_none hnone, List.length_nil, Nat.add_zero]
    · omega
  rw [hcount] at hload hc'
  refine ⟨c', hload, fun id hid => ?_⟩
  obtain ⟨result, hresult, heq⟩ := hc'.getTuple_eq hid
  have hbits : kind.bits = Column.keptBits type bitWidth := by
    obtain ⟨start, _, hnew, _⟩ := hc
    obtain ⟨kind', hkind'⟩ := Column.exists_blockKind_of_new hnew (by omega)
    rw [← hunique kind' hkind']
    exact Column.bits_of_blockKind hkind'
  refine ⟨result, hresult, heq.trans ?_⟩
  rw [hbits]
  unfold Column.loaded
  by_cases hin : id < items.length
  · rw [if_pos (by omega), List.getElem?_eq_getElem hin, Nat.sub_zero]
    have hcode : (items.map Prod.fst ++ extractAll 64 rest).getD id 0#64 = items[id].1 := by
      rw [List.getD_append _ _ _ _ (by rw [List.length_map]; exact hin),
        List.getD_eq_getElem _ _ (by rw [List.length_map]; exact hin), List.getElem_map]
    dsimp only
    rw [hcode]
    rfl
  · rw [if_neg (by omega), List.getElem?_eq_none (Nat.not_lt.mp hin)]
    rfl

/-- The codes `5` and `2055`, one on a line, are loaded into a byte slice column of three
tuples of eleven bits, which keeps `7` of the second. -/
theorem loadTextFile_round_trip_three :
    ∃ c c' result, Column.new .kByteSlicePadRight 11 3 = some c ∧
      c.loadTextFile (some ['5', '\n', '2', '0', '5', '5', '\n']) = some (2, c') ∧
      c'.getTuple 1 = some result ∧ result.toNat = 7 := by
  have hkind : Column.blockKind .kByteSlicePadRight 11 =
      some (.byteSlice ⟨11, by omega, by omega⟩) := rfl
  obtain ⟨c, hnew, _⟩ := Column.exists_new hkind 3
  have hline : ['\n'] ≠ [] ∧ ∀ c ∈ ['\n'], isSpace c = true := by
    refine ⟨List.cons_ne_nil _ _, fun c hc => ?_⟩
    rw [List.mem_singleton.mp hc]
    decide
  obtain ⟨c', hload, htuples⟩ := loadTextFile_round_trip .kByteSlicePadRight 11 3 c
    (Column.built_new hnew) [(5#64, ['\n']), (2055#64, ['\n'])]
    (fun item hitem => by rcases List.mem_pair.mp hitem with rfl | rfl <;> exact hline) []
    (Or.inl (by decide))
  obtain ⟨result, hresult, heq⟩ := htuples 1 (by decide)
  exact ⟨c, c', result, hnew, hload, hresult, heq⟩

end ByteSlice
