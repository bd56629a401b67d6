import Mathlib

/-!
# Values in byte streams

A `ByteCodec` is the object representation of a type: every value has an image of a
fixed number of bytes, from which it can be recovered.  Numbers are stored with the
least significant byte first, arrays element by element.

Reading transfers bytes from a stream into an existing object and overwrites as much
of its image as there was to read.  `Consumes` is the property on which formats
without framing rest: whatever follows it in the stream, an image is consumed
exactly.  It composes along sequences of objects.
-/

namespace Foundation

universe u v w

abbrev Byte := BitVec 8

/-- The low `count` bytes of a number, the least significant first. -/
def bytesOf : Nat → Nat → List Byte
  | 0, _ => []
  | count + 1, n => BitVec.ofNat 8 n :: bytesOf count (n / 256)

/-- The number that a byte sequence writes. -/
def numberOf : List Byte → Nat
  | [] => 0
  | byte :: rest => byte.toNat + 256 * numberOf rest

theorem length_bytesOf (count n : Nat) : (bytesOf count n).length = count := by
  induction count generalizing n with
  | zero => rfl
  | succ count ih => rw [bytesOf, List.length_cons, ih]

theorem numberOf_bytesOf (count n : Nat) : numberOf (bytesOf count n) = n % 256 ^ count := by
  induction count generalizing n with
  | zero => rw [bytesOf, numberOf, Nat.pow_zero, Nat.mod_one]
  | succ count ih =>
      rw [bytesOf, numberOf, ih, BitVec.toNat_ofNat,
        show 256 ^ (count + 1) = 256 * 256 ^ count from Nat.pow_succ']
      exact Nat.mod_mul.symm

/-- In a sequence of images of one length, those before an image are as many lengths. -/
theorem take_drop_flatMap_of_length {α : Type u} {image : α → List Byte} {size : Nat}
    {items : List α} (hlen : ∀ b ∈ items, (image b).length = size) {i : Nat} {a : α}
    (hi : items[i]? = some a) :
    ((items.flatMap image).drop (i * size)).take size = image a := by
  induction items generalizing i with
  | nil => simp at hi
  | cons b items ih =>
      have hfirst := hlen b List.mem_cons_self
      rw [List.flatMap_cons]
      cases i with
      | zero =>
          obtain rfl : b = a := by simpa using hi
          rw [Nat.zero_mul, List.drop_zero]
          exact List.take_left' hfirst
      | succ i =>
          have hskip : (i + 1) * size = (image b).length + i * size := by
            rw [hfirst, Nat.succ_mul, Nat.add_comm]
          rw [hskip, List.drop_length_add_append]
          exact ih (fun other hother => hlen other (List.mem_cons_of_mem b hother))
            (by simpa using hi)

/-- An object representation of fixed size. -/
structure ByteCodec (α : Type u) where
  size : Nat
  encode : α → List Byte
  decode : List Byte → α
  length_encode : ∀ a, (encode a).length = size
  decode_encode : ∀ a, decode (encode a) = a

namespace ByteCodec

variable {α : Type u}

/-- An unsigned integer of `count` bytes. -/
def word (count : Nat) : ByteCodec (BitVec (8 * count)) where
  size := count
  encode x := bytesOf count x.toNat
  decode bytes := BitVec.ofNat _ (numberOf bytes)
  length_encode x := length_bytesOf count x.toNat
  decode_encode x := by
    have hlt : x.toNat < 256 ^ count := by
      rw [show 256 = 2 ^ 8 from rfl, ← Nat.pow_mul]
      exact x.isLt
    rw [numberOf_bytesOf, Nat.mod_eq_of_lt hlt, BitVec.ofNat_toNat, BitVec.setWidth_eq]

theorem length_flatMap_encode (c : ByteCodec α) (items : List α) :
    (items.flatMap c.encode).length = items.length * c.size := by
  induction items with
  | nil => simp
  | cons a items ih =>
      rw [List.flatMap_cons, List.length_append, c.length_encode, ih, List.length_cons,
        Nat.succ_mul, Nat.add_comm]

/-- The image of an element inside that of its sequence. -/
theorem take_drop_flatMap (c : ByteCodec α) {items : List α} {i : Nat} {a : α}
    (hi : items[i]? = some a) :
    ((items.flatMap c.encode).drop (i * c.size)).take c.size = c.encode a :=
  take_drop_flatMap_of_length (fun b _ => c.length_encode b) hi

/-- An array, element by element. -/
def vector (c : ByteCodec α) (n : Nat) : ByteCodec (Vector α n) where
  size := n * c.size
  encode v := v.toList.flatMap c.encode
  decode bytes := Vector.ofFn fun i => c.decode ((bytes.drop (i * c.size)).take c.size)
  length_encode v := by rw [length_flatMap_encode, Vector.length_toList]
  decode_encode v := by
    apply Vector.ext
    intro i hi
    have hitem : v.toList[i]? = some v[i] := by
      rw [Vector.getElem?_toList]
      exact Vector.getElem?_eq_getElem hi
    rw [Vector.getElem_ofFn, take_drop_flatMap c hitem, c.decode_encode]

/-- Overwrite the first bytes of an object. -/
def overwrite (c : ByteCodec α) (old : α) (bytes : List Byte) : α :=
  c.decode (bytes ++ (c.encode old).drop bytes.length)

/-- Overwritten with a whole image an object is the one the image is of. -/
theorem overwrite_encode (c : ByteCodec α) (old new : α) :
    c.overwrite old (c.encode new) = new := by
  unfold overwrite
  rw [List.drop_of_length_le (by rw [c.length_encode, c.length_encode]), List.append_nil]
  exact c.decode_encode new

end ByteCodec

/-! ## Reading sequences of objects -/

section Streams

variable {α : Type u} {β : Type v} {φ : Type w} {feed : List Byte → φ}
  {receive : β → φ → β × φ}

/-- Whatever follows an image in the stream, reading it into an object consumes
exactly the image and leaves an object with the given property. -/
def Consumes (feed : List Byte → φ) (receive : β → φ → β × φ) (image : List Byte) (old : β)
    (good : β → Prop) : Prop :=
  ∀ rest, ∃ new, receive old (feed (image ++ rest)) = (new, feed rest) ∧ good new

/-- Read objects one after the other, each into the existing one. -/
def receiveAll (receive : β → φ → β × φ) : List β → φ → List β × φ
  | [], stream => ([], stream)
  | old :: olds, stream =>
      let (new, stream) := receive old stream
      let (news, stream) := receiveAll receive olds stream
      (new :: news, stream)

/-- The images of a sequence are consumed one after the other.  A length mismatch
anywhere would shift all later ones. -/
theorem consumes_receiveAll {image : α → List Byte} {rel : α → β → Prop} {sent : List α}
    {olds : List β}
    (hall : List.Forall₂ (fun a old => Consumes feed receive (image a) old (rel a)) sent olds) :
    Consumes feed (receiveAll receive) (sent.flatMap image) olds
      fun news => List.Forall₂ rel sent news := by
  induction hall with
  | nil =>
      intro rest
      exact ⟨[], rfl, List.Forall₂.nil⟩
  | @cons a old sent olds hhead _ ih =>
      intro rest
      obtain ⟨new, hnew, hrel⟩ := hhead (sent.flatMap image ++ rest)
      obtain ⟨news, hnews, hrels⟩ := ih rest
      refine ⟨new :: news, ?_, List.Forall₂.cons hrel hrels⟩
      rw [List.flatMap_cons, List.append_assoc, receiveAll, hnew]
      dsimp only
      rw [hnews]

/-- Writing objects one after the other writes their images in order. -/
theorem foldl_write_eq {image : α → List Byte} {write : α → φ → φ} {written : φ → List Byte}
    (hwrite : ∀ a stream, written (write a stream) = written stream ++ image a)
    (items : List α) (stream : φ) :
    written (items.foldl (fun stream a => write a stream) stream) =
      written stream ++ items.flatMap image := by
  induction items generalizing stream with
  | nil => simp
  | cons a items ih =>
      rw [List.foldl_cons, ih, hwrite, List.flatMap_cons, List.append_assoc]

end Streams

end Foundation
