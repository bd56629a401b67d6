import Mathlib
import ByteSlice.Types
import ByteSlice.Foundation.ByteCodec

/-!
# `SequentialReadBinaryFile` and `SequentialWriteBinaryFile`

The stream behind an open file: for a writer the bytes written so far, for a reader
the bytes not read yet.  `fwrite` and `fread` transfer the requested size, in order;
at the end of the file `fread` transfers what is left.  Both return the number of
bytes transferred, which no caller looks at.
-/

namespace ByteSlice

open Foundation

structure SequentialWriteBinaryFile where
  written : List ByteUnit

structure SequentialReadBinaryFile where
  unread : List ByteUnit

/-- `Append(data, size)` of the object with image `data`. -/
def SequentialWriteBinaryFile.append (data : List ByteUnit) (size : Nat)
    (file : SequentialWriteBinaryFile) : SequentialWriteBinaryFile :=
  { written := file.written ++ data.take size }

/-- `Read(buf, size)`: the bytes transferred to the front of the buffer. -/
def SequentialReadBinaryFile.read (size : Nat) (file : SequentialReadBinaryFile) :
    List ByteUnit × SequentialReadBinaryFile :=
  (file.unread.take size, { unread := file.unread.drop size })

/-- `Read` with an object of a known representation as its buffer. -/
def SequentialReadBinaryFile.readInto {α : Type} (codec : ByteCodec α) (old : α) (size : Nat)
    (file : SequentialReadBinaryFile) : α × SequentialReadBinaryFile :=
  let (bytes, file) := file.read size
  (codec.overwrite old bytes, file)

variable {α : Type} {codec : ByteCodec α} {size : Nat}

/-- Appending a whole object. -/
theorem SequentialWriteBinaryFile.append_encode (hsize : codec.size = size) (a : α)
    (file : SequentialWriteBinaryFile) :
    file.append (codec.encode a) size = { written := file.written ++ codec.encode a } := by
  unfold append
  rw [List.take_of_length_le (by rw [codec.length_encode, hsize])]

/-- Reading a whole object. -/
theorem SequentialReadBinaryFile.readInto_encode (hsize : codec.size = size) (old new : α)
    (rest : List ByteUnit) :
    readInto codec old size { unread := codec.encode new ++ rest } =
      (new, { unread := rest }) := by
  have hlen : (codec.encode new).length = size := by rw [codec.length_encode, hsize]
  unfold readInto read
  dsimp only
  rw [List.take_left' hlen, List.drop_left' hlen, codec.overwrite_encode]

end ByteSlice
