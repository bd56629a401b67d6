import Mathlib
import ByteSlice.Foundation.ByteCodec

/-!
# Reading unchecked bytes

A format without framing reads whatever it is given.  `overlay` is what an image becomes
when a stream is read over it: the front is the stream's, as far as the stream goes, and
the rest is kept.

`Overlays` says of a reader that this is what it does to every stream, also to one that is
too short.  Like `Consumes` it composes along sequences of objects, and it needs of the
representation that no byte sequence of the right length is lost (`ByteCodec.Onto`).
-/

namespace Foundation

universe u v w

/-- The image with its front overwritten by the bytes. -/
def overlay (old bytes : List Byte) : List Byte :=
  bytes.take old.length ++ old.drop bytes.length

section Overlay

variable {old bytes : List Byte}

theorem length_overlay (old bytes : List Byte) : (overlay old bytes).length = old.length := by
  rw [overlay, List.length_append, List.length_take, List.length_drop]
  omega

theorem overlay_nil (old : List Byte) : overlay old [] = old := by
  rw [overlay, List.take_nil, List.nil_append, List.length_nil, List.drop_zero]

theorem overlay_empty (bytes : List Byte) : overlay [] bytes = [] :=
  List.eq_nil_of_length_eq_zero (length_overlay [] bytes)

/-- Bytes behind the image do not matter. -/
theorem overlay_take (old bytes : List Byte) :
    overlay old (bytes.take old.length) = overlay old bytes := by
  unfold overlay
  rw [List.take_take, Nat.min_self, List.length_take]
  rcases Nat.le_total old.length bytes.length with hle | hle
  · rw [Nat.min_eq_left hle, List.drop_length, List.drop_of_length_le hle]
  · rw [Nat.min_eq_right hle]

/-- A stream that is long enough replaces the image. -/
theorem overlay_of_length_le (hle : old.length ≤ bytes.length) :
    overlay old bytes = bytes.take old.length := by
  rw [overlay, List.drop_of_length_le hle, List.append_nil]

/-- What the first of two images leaves of the stream goes over the second one. -/
theorem overlay_append (first second bytes : List Byte) :
    overlay (first ++ second) bytes =
      overlay first bytes ++ overlay second (bytes.drop first.length) := by
  unfold overlay
  rw [List.length_append, List.length_drop, List.drop_append]
  rcases Nat.le_total first.length bytes.length with hle | hle
  · rw [List.drop_of_length_le hle, List.nil_append, List.append_nil, ← List.append_assoc,
      ← List.take_add]
  · rw [Nat.sub_eq_zero_of_le hle, List.drop_zero, List.drop_of_length_le hle, List.take_nil,
      List.nil_append, List.take_of_length_le (show bytes.length ≤ _ by omega),
      List.take_of_length_le hle, List.append_assoc]

/-- A part of the image, under the part of the stream that is read over it. -/
theorem take_drop_overlay (old bytes : List Byte) (start size : Nat) :
    ((overlay old bytes).drop start).take size =
      overlay ((old.drop start).take size) (bytes.drop start) := by
  rcases Nat.le_total start old.length with hle | hle
  · have hstart : (old.take start).length = start := by rw [List.length_take, Nat.min_eq_left hle]
    have hsplit : overlay old bytes =
        overlay (old.take start) bytes ++ (overlay ((old.drop start).take size) (bytes.drop start)
          ++ overlay ((old.drop start).drop size)
            ((bytes.drop start).drop ((old.drop start).take size).length)) := by
      rw [← overlay_append, List.take_append_drop]
      nth_rewrite 1 [← List.take_append_drop start old]
      rw [overlay_append, hstart]
    rw [hsplit, List.drop_left' (by rw [length_overlay, hstart])]
    rcases Nat.le_total size (old.drop start).length with hfits | hfits
    · exact List.take_left' (by rw [length_overlay, List.length_take, Nat.min_eq_left hfits])
    · rw [List.drop_of_length_le hfits, overlay_empty, List.append_nil, List.take_of_length_le]
      rw [length_overlay, List.length_take]
      exact Nat.min_le_left _ _
  · rw [List.drop_of_length_le (by rw [length_overlay]; exact hle), List.drop_of_length_le hle,
      List.take_nil, overlay_empty]

/-- The same, with a stream that is cut off. -/
theorem take_drop_overlay_take (old bytes : List Byte) (cut : Nat) {start size : Nat}
    (hle : start + size ≤ old.length) :
    ((overlay old (bytes.take cut)).drop start).take size =
      overlay ((old.drop start).take size) (((bytes.drop start).take size).take (cut - start)) := by
  have hlen : ((old.drop start).take size).length = size := by
    rw [List.length_take, List.length_drop]
    omega
  rw [take_drop_overlay, List.drop_take, ← overlay_take, hlen, List.take_take, List.take_take,
    Nat.min_comm]

theorem take_overlay (old bytes : List Byte) (size : Nat) :
    (overlay old bytes).take size = overlay (old.take size) bytes := by
  simpa only [List.drop_zero] using take_drop_overlay old bytes 0 size

end Overlay

theorem numberOf_lt (bytes : List Byte) : numberOf bytes < 256 ^ bytes.length := by
  induction bytes with
  | nil => exact Nat.one_pos
  | cons byte rest ih =>
      rw [numberOf, List.length_cons, Nat.pow_succ']
      have hbyte := byte.isLt
      omega

theorem bytesOf_numberOf (bytes : List Byte) : bytesOf bytes.length (numberOf bytes) = bytes := by
  induction bytes with
  | nil => rfl
  | cons byte rest ih =>
      have hbyte : byte.toNat < 256 := byte.isLt
      rw [List.length_cons, bytesOf, numberOf,
        show (byte.toNat + 256 * numberOf rest) / 256 = numberOf rest by omega, ih]
      congr 1
      apply BitVec.eq_of_toNat_eq
      rw [BitVec.toNat_ofNat]
      omega

theorem numberOf_append (bytes rest : List Byte) :
    numberOf (bytes ++ rest) = numberOf bytes + 256 ^ bytes.length * numberOf rest := by
  induction bytes with
  | nil =>
      rw [List.nil_append, numberOf, List.length_nil, Nat.pow_zero, Nat.one_mul, Nat.zero_add]
  | cons byte bytes ih =>
      rw [List.cons_append, numberOf, numberOf, ih, List.length_cons, Nat.pow_succ', Nat.mul_add,
        Nat.mul_assoc, Nat.add_assoc]

theorem take_bytesOf {k count : Nat} (hk : k ≤ count) (n : Nat) :
    (bytesOf count n).take k = bytesOf k n := by
  induction k generalizing count n with
  | zero => rfl
  | succ k ih =>
      obtain ⟨count, rfl⟩ : ∃ m, count = m + 1 := ⟨count - 1, by omega⟩
      rw [bytesOf, List.take_succ_cons, ih (by omega), bytesOf]

theorem drop_bytesOf {k count : Nat} (hk : k ≤ count) (n : Nat) :
    (bytesOf count n).drop k = bytesOf (count - k) (n / 256 ^ k) := by
  induction k generalizing count n with
  | zero => rw [List.drop_zero, Nat.sub_zero, Nat.pow_zero, Nat.div_one]
  | succ k ih =>
      obtain ⟨count, rfl⟩ : ∃ m, count = m + 1 := ⟨count - 1, by omega⟩
      rw [bytesOf, List.drop_succ_cons, ih (by omega), Nat.div_div_eq_div_mul, ← Nat.pow_succ',
        Nat.add_sub_add_right]

/-- A number whose low bytes are overwritten with those of another one. -/
theorem numberOf_overlay_bytesOf {count old : Nat} (hold : old < 256 ^ count) (new cut : Nat) :
    numberOf (overlay (bytesOf count old) ((bytesOf count new).take cut)) =
      new % 256 ^ min count cut + old / 256 ^ min count cut * 256 ^ min count cut := by
  have hk : min count cut ≤ count := Nat.min_le_left _ _
  have htake : (bytesOf count new).take cut = bytesOf (min count cut) new := by
    rw [← take_bytesOf hk, List.take_eq_take_min, length_bytesOf, Nat.min_comm]
  have hhigh : old / 256 ^ min count cut < 256 ^ (count - min count cut) := by
    rw [Nat.div_lt_iff_lt_mul (Nat.pow_pos (by decide)), ← Nat.pow_add, Nat.sub_add_cancel hk]
    exact hold
  rw [htake, overlay, List.take_of_length_le (by rw [length_bytesOf, length_bytesOf]; exact hk),
    length_bytesOf, drop_bytesOf hk, numberOf_append, numberOf_bytesOf, numberOf_bytesOf,
    length_bytesOf, Nat.mod_eq_of_lt hhigh, Nat.mul_comm (256 ^ _)]

namespace ByteCodec

variable {α : Type u}

/-- Every byte sequence of the right length is the image of the value that it decodes to. -/
def Onto (c : ByteCodec α) : Prop :=
  ∀ bytes, bytes.length = c.size → c.encode (c.decode bytes) = bytes

theorem onto_word (count : Nat) : (word count).Onto := by
  intro bytes hlen
  have hlen' : bytes.length = count := hlen
  have hlt : numberOf bytes < 2 ^ (8 * count) := by
    rw [Nat.pow_mul, show 2 ^ 8 = 256 from rfl, ← hlen']
    exact numberOf_lt bytes
  show bytesOf count (BitVec.ofNat (8 * count) (numberOf bytes)).toNat = bytes
  rw [BitVec.toNat_ofNat, Nat.mod_eq_of_lt hlt, ← hlen']
  exact bytesOf_numberOf bytes

/-- The elements of an array are decoded one by one. -/
theorem Onto.flatMap_range {c : ByteCodec α} (hc : c.Onto) (n : Nat) {bytes : List Byte}
    (hlen : bytes.length = n * c.size) :
    ((List.range n).flatMap fun i => c.encode (c.decode ((bytes.drop (i * c.size)).take c.size))) =
      bytes := by
  induction n generalizing bytes with
  | zero =>
      rw [Nat.zero_mul] at hlen
      rw [List.eq_nil_of_length_eq_zero hlen]
      rfl
  | succ n ih =>
      rw [Nat.succ_mul] at hlen
      have hfirst : (bytes.take (n * c.size)).length = n * c.size := by
        rw [List.length_take]
        omega
      have hlast : ((bytes.drop (n * c.size)).take c.size).length = c.size := by
        rw [List.length_take, List.length_drop]
        omega
      rw [List.range_succ, List.flatMap_append, List.flatMap_singleton, hc _ hlast]
      -- the elements before the last one do not reach into it
      have hbefore : ((List.range n).flatMap fun i =>
          c.encode (c.decode ((bytes.drop (i * c.size)).take c.size))) = bytes.take (n * c.size) := by
        rw [← ih hfirst]
        refine List.flatMap_congr fun i hi => ?_
        have hi : (i + 1) * c.size ≤ n * c.size := Nat.mul_le_mul_right _ (List.mem_range.mp hi)
        rw [Nat.succ_mul] at hi
        rw [List.drop_take, List.take_take, Nat.min_eq_left (by omega)]
      have hrest : (bytes.drop (n * c.size)).take c.size = bytes.drop (n * c.size) :=
        List.take_of_length_le (by rw [List.length_drop]; omega)
      rw [hbefore, hrest, List.take_append_drop]

theorem Onto.vector {c : ByteCodec α} (hc : c.Onto) (n : Nat) : (c.vector n).Onto := by
  intro bytes hlen
  have hitems : ((c.vector n).decode bytes).toList =
      (List.range n).map fun i => c.decode ((bytes.drop (i * c.size)).take c.size) := by
    apply List.ext_getElem
    · rw [Vector.length_toList, List.length_map, List.length_range]
    · intro i hi _
      rw [Vector.getElem_toList, List.getElem_map, List.getElem_range]
      exact Vector.getElem_ofFn _
  show ((c.vector n).decode bytes).toList.flatMap c.encode = bytes
  rw [hitems, List.flatMap_map]
  exact hc.flatMap_range n hlen

/-- Overwriting the front of an object. -/
theorem Onto.encode_overwrite {c : ByteCodec α} (hc : c.Onto) (old : α) {bytes : List Byte}
    (hlen : bytes.length ≤ c.size) :
    c.encode (c.overwrite old bytes) = overlay (c.encode old) bytes := by
  unfold overwrite overlay
  rw [List.take_of_length_le (by rw [c.length_encode]; exact hlen)]
  apply hc
  rw [List.length_append, List.length_drop, c.length_encode]
  omega

end ByteCodec

/-! ## Reading sequences of objects -/

section Streams

variable {α : Type u} {β : Type v} {φ : Type w} {feed : List Byte → φ}
  {receive : β → φ → β × φ}

/-- Whatever the stream is, reading it into the object overwrites its image and takes the
length of the image off the stream.  The property `keeps` holds of the object before and
after. -/
def Overlays (feed : List Byte → φ) (receive : β → φ → β × φ) (image : β → List Byte)
    (keeps : β → β → Prop) (old : β) : Prop :=
  ∀ bytes, ∃ new, receive old (feed bytes) = (new, feed (bytes.drop (image old).length)) ∧
    image new = overlay (image old) bytes ∧ keeps old new

/-- A sequence is overwritten as if it were one object. -/
theorem overlays_receiveAll {image : β → List Byte} {keeps : β → β → Prop} {olds : List β}
    (hall : ∀ old ∈ olds, Overlays feed receive image keeps old) :
    Overlays feed (receiveAll receive) (fun objects => objects.flatMap image)
      (List.Forall₂ keeps) olds := by
  induction olds with
  | nil =>
      intro bytes
      exact ⟨[], rfl, (overlay_empty bytes).symm, List.Forall₂.nil⟩
  | cons old olds ih =>
      intro bytes
      obtain ⟨new, hnew, himage, hkeeps⟩ := hall old List.mem_cons_self bytes
      obtain ⟨news, hnews, himages, hkept⟩ :=
        ih (fun other hother => hall other (List.mem_cons_of_mem old hother))
          (bytes.drop (image old).length)
      refine ⟨new :: news, ?_, ?_, List.Forall₂.cons hkeeps hkept⟩
      · rw [receiveAll, hnew]
        dsimp only
        rw [hnews, List.flatMap_cons, List.length_append, List.drop_drop]
      · dsimp only at himages ⊢
        rw [List.flatMap_cons, List.flatMap_cons, overlay_append, himage, himages]

end Streams

end Foundation
