import Mathlib
import ByteSlice.SequentialBinaryFile

/-!
# `Open` and `Close` of the binary files

Both file classes keep one `FILE*` and the name that was asked for last.  Their
guards take the pointer for the state of the stream, but `Close` does not reset it:
after a `Close` that succeeded the object holds a handle that is closed already, so
that the next `Close` passes it to `fclose` again and the next `Open` is refused.

`Phase` is the protocol: what has happened to the stream, computed from the calls.
`Tracks` ties the pointer to it.  The main result says which sequences of calls go
well.
-/

namespace ByteSlice

/-! ## The C library -/

/-- A `FILE*` that is not `NULL`. -/
abbrev Handle := Nat

/-- The calls that reached the C library: the files opened, oldest first, with their
modes, and the handles passed to `fclose`, latest first. -/
structure Stdio where
  opened : List (String × String)
  closed : List Handle

/-- `fopen` returns `NULL` or a fresh handle. -/
def fopen (filename mode : String) (granted : Bool) (io : Stdio) : Option Handle × Stdio :=
  if granted then
    (some io.opened.length, { io with opened := io.opened ++ [(filename, mode)] })
  else
    (none, io)

/-- `fclose`, with the value that it returns. -/
def fclose (file : Handle) (result : Int) (io : Stdio) : Int × Stdio :=
  (result, { io with closed := file :: io.closed })

/-! ## The two classes -/

/-- The members of both classes. -/
structure BinaryFile where
  file : Option Handle
  filename : String

/-- What a call returns: true, or false after a message. -/
abbrev Outcome := Except String Unit

namespace BinaryFile

/-- The member initialisers. -/
def new : BinaryFile where
  file := none
  filename := ""

/-- `Open` in either class.  The mode is the only difference. -/
def openFile (mode filename : String) (granted : Bool) (object : BinaryFile) (io : Stdio) :
    Outcome × BinaryFile × Stdio :=
  match object.file with
  | some _ => (.error ("Already opened file: " ++ object.filename), object, io)
  | none =>
      let (file, io) := fopen filename mode granted io
      let object : BinaryFile := { file := file, filename := filename }
      match file with
      | none => (.error ("Can't open file: " ++ object.filename), object, io)
      | some _ => (.ok (), object, io)

/-- `Close` in either class. -/
def closeFile (result : Int) (object : BinaryFile) (io : Stdio) : Outcome × BinaryFile × Stdio :=
  match object.file with
  | none => (.error "No file opened.", object, io)
  | some file =>
      let (result, io) := fclose file result io
      if 0 ≠ result then
        (.error ("Error happens when closing file: " ++ object.filename), object, io)
      else
        (.ok (), object, io)

end BinaryFile

def SequentialReadBinaryFile.openFile : String → Bool → BinaryFile → Stdio →
    Outcome × BinaryFile × Stdio :=
  BinaryFile.openFile "rb"

def SequentialReadBinaryFile.closeFile : Int → BinaryFile → Stdio →
    Outcome × BinaryFile × Stdio :=
  BinaryFile.closeFile

def SequentialWriteBinaryFile.openFile : String → Bool → BinaryFile → Stdio →
    Outcome × BinaryFile × Stdio :=
  BinaryFile.openFile "wb"

def SequentialWriteBinaryFile.closeFile : Int → BinaryFile → Stdio →
    Outcome × BinaryFile × Stdio :=
  BinaryFile.closeFile

inductive FileClass
  | read
  | write

namespace FileClass

def openFile : FileClass → String → Bool → BinaryFile → Stdio → Outcome × BinaryFile × Stdio
  | .read => SequentialReadBinaryFile.openFile
  | .write => SequentialWriteBinaryFile.openFile

def closeFile : FileClass → Int → BinaryFile → Stdio → Outcome × BinaryFile × Stdio
  | .read => SequentialReadBinaryFile.closeFile
  | .write => SequentialWriteBinaryFile.closeFile

/-- The mode that `Open` asks for. -/
def mode : FileClass → String
  | .read => "rb"
  | .write => "wb"

theorem openFile_eq (cls : FileClass) : cls.openFile = BinaryFile.openFile cls.mode := by
  cases cls <;> rfl

theorem closeFile_eq (cls : FileClass) : cls.closeFile = BinaryFile.closeFile := by
  cases cls <;> rfl

end FileClass

/-! ## Sequences of calls -/

/-- A call on an object.  Whether `fopen` finds the file is up to the file system. -/
inductive FileCall
  | openFile (filename : String) (granted : Bool)
  | closeFile

/-- An object in use.  `isOpen` is not part of it: it records that an `Open` succeeded
and that no `Close` succeeded since. -/
structure FileSession where
  object : BinaryFile
  io : Stdio
  isOpen : Bool

namespace FileSession

def start : FileSession where
  object := BinaryFile.new
  io := { opened := [], closed := [] }
  isOpen := false

/-- One call.  `fclose` returns `0`. -/
def call (cls : FileClass) (s : FileSession) : FileCall → Outcome × FileSession
  | .openFile filename granted =>
      let (outcome, object, io) := cls.openFile filename granted s.object s.io
      (outcome, { object := object, io := io, isOpen := s.isOpen || outcome.isOk })
  | .closeFile =>
      let (outcome, object, io) := cls.closeFile 0 s.object s.io
      (outcome, { object := object, io := io, isOpen := s.isOpen && !outcome.isOk })

/-- The session after a sequence of calls on a new object. -/
def run (cls : FileClass) (calls : List FileCall) : FileSession :=
  calls.foldl (fun s c => (s.call cls c).2) start

theorem run_append_singleton (cls : FileClass) (calls : List FileCall) (c : FileCall) :
    run cls (calls ++ [c]) = ((run cls calls).call cls c).2 := by
  unfold run
  rw [List.foldl_append]
  rfl

end FileSession

/-- The protocol, for a sequence of calls on a new object: no handle is passed to
`fclose` twice; a `Close` with no file open fails and reaches nothing; an `Open` with
no file open succeeds if `fopen` does. -/
structure ObeysProtocol (cls : FileClass) (calls : List FileCall) : Prop where
  nodup_closed : (FileSession.run cls calls).io.closed.Nodup
  close_unopened : ∀ before after, calls = before ++ .closeFile :: after →
    (FileSession.run cls before).isOpen = false →
    ((FileSession.run cls before).call cls .closeFile).1.isOk = false ∧
      ((FileSession.run cls before).call cls .closeFile).2.io = (FileSession.run cls before).io
  open_unopened : ∀ before filename after, calls = before ++ .openFile filename true :: after →
    (FileSession.run cls before).isOpen = false →
    ((FileSession.run cls before).call cls (.openFile filename true)).1.isOk = true

/-! ## Phases -/

/-- What has happened to the stream of an object. -/
inductive Phase
  | unopened
  | opened
  | released
  deriving DecidableEq

namespace Phase

def next : Phase → FileCall → Phase
  | .unopened, .openFile _ true => .opened
  | .opened, .closeFile => .released
  | phase, _ => phase

/-- The phase after a sequence of calls: opened by the first `Open` that `fopen`
grants, released by the first `Close` after it. -/
def after (calls : List FileCall) : Phase := calls.foldl next .unopened

theorem after_append_singleton (calls : List FileCall) (c : FileCall) :
    after (calls ++ [c]) = (after calls).next c := by
  unfold after
  rw [List.foldl_append]
  rfl

theorem next_unopened_ne (c : FileCall) : unopened.next c ≠ .released := by
  cases c with
  | openFile filename granted =>
      cases granted with
      | true => exact fun h => Phase.noConfusion h
      | false => exact fun h => Phase.noConfusion h
  | closeFile => exact fun h => Phase.noConfusion h

end Phase

/-- After its release the object gets no `Close`, and no `Open` that `fopen` grants. -/
def NotReused (calls : List FileCall) : Prop :=
  ∀ before c rest, calls = before ++ c :: rest → Phase.after before = .released →
    ∃ filename, c = .openFile filename false

/-- What the pointer says in each phase.  It is the same before and after the
release. -/
def Tracks (s : FileSession) : Phase → Prop
  | .unopened => s.object.file = none ∧ s.isOpen = false ∧ s.io.closed = []
  | .opened => ∃ file, s.object.file = some file ∧ s.isOpen = true ∧ s.io.closed = []
  | .released => ∃ file, s.object.file = some file ∧ s.isOpen = false

/-- Before the release nothing was closed. -/
theorem Tracks.closed_eq_nil {s : FileSession} {phase : Phase} (h : Tracks s phase)
    (hphase : phase ≠ .released) : s.io.closed = [] := by
  cases phase with
  | unopened => exact h.2.2
  | opened =>
      obtain ⟨_, -, -, hclosed⟩ := h
      exact hclosed
  | released => exact absurd rfl hphase

section Calls

variable (cls : FileClass) {s : FileSession}

/-- An object whose pointer is null opens whatever `fopen` grants. -/
theorem call_openFile_null (hfile : s.object.file = none) (filename : String) (granted : Bool) :
    ∃ outcome object io, s.call cls (.openFile filename granted) =
        (outcome, { object := object, io := io, isOpen := s.isOpen || granted }) ∧
      outcome.isOk = granted ∧ io.closed = s.io.closed ∧
      object.file = if granted then some s.io.opened.length else none := by
  unfold FileSession.call
  dsimp only
  rw [cls.openFile_eq, BinaryFile.openFile, hfile]
  cases granted with
  | true => exact ⟨_, _, _, rfl, rfl, rfl, rfl⟩
  | false => exact ⟨_, _, _, rfl, rfl, rfl, rfl⟩

/-- An object whose pointer is not null refuses to open. -/
theorem call_openFile_of_file {file : Handle} (hfile : s.object.file = some file)
    (filename : String) (granted : Bool) :
    ∃ message, s.call cls (.openFile filename granted) = (.error message, s) := by
  unfold FileSession.call
  dsimp only
  rw [cls.openFile_eq, BinaryFile.openFile, hfile]
  refine ⟨_, Prod.ext rfl ?_⟩
  show ({ object := s.object, io := s.io, isOpen := s.isOpen || false } : FileSession) = s
  rw [Bool.or_false]

/-- An object whose pointer is null has nothing to close. -/
theorem call_closeFile_null (hfile : s.object.file = none) :
    ∃ message, s.call cls .closeFile = (.error message, s) := by
  unfold FileSession.call
  dsimp only
  rw [cls.closeFile_eq, BinaryFile.closeFile, hfile]
  refine ⟨_, Prod.ext rfl ?_⟩
  show ({ object := s.object, io := s.io, isOpen := s.isOpen && true } : FileSession) = s
  rw [Bool.and_true]

/-- An object whose pointer is not null closes it, and keeps it. -/
theorem call_closeFile_of_file {file : Handle} (hfile : s.object.file = some file) :
    s.call cls .closeFile = (.ok (),
      { object := s.object
        io := { s.io with closed := file :: s.io.closed }
        isOpen := false }) := by
  unfold FileSession.call
  dsimp only
  rw [cls.closeFile_eq, BinaryFile.closeFile, hfile]
  refine Prod.ext rfl ?_
  show FileSession.mk _ _ (s.isOpen && false) = _
  rw [Bool.and_false]
  rfl

/-- The step lemma. -/
theorem Tracks.call {phase : Phase} (h : Tracks s phase) (c : FileCall) :
    Tracks (s.call cls c).2 (phase.next c) := by
  cases phase with
  | unopened =>
      obtain ⟨hfile, hopen, hclosed⟩ := h
      cases c with
      | openFile filename granted =>
          obtain ⟨outcome, object, io, hcall, -, hio, hobject⟩ :=
            call_openFile_null cls hfile filename granted
          rw [hcall]
          cases granted with
          | true => exact ⟨_, hobject, Bool.or_true _, hio.trans hclosed⟩
          | false => exact ⟨hobject, (Bool.or_false _).trans hopen, hio.trans hclosed⟩
      | closeFile =>
          obtain ⟨message, hcall⟩ := call_closeFile_null cls hfile
          rw [hcall]
          exact ⟨hfile, hopen, hclosed⟩
  | opened =>
      obtain ⟨file, hfile, hopen, hclosed⟩ := h
      cases c with
      | openFile filename granted =>
          obtain ⟨message, hcall⟩ := call_openFile_of_file cls hfile filename granted
          rw [hcall]
          exact ⟨file, hfile, hopen, hclosed⟩
      | closeFile =>
          rw [call_closeFile_of_file cls hfile]
          exact ⟨file, hfile, rfl⟩
  | released =>
      obtain ⟨file, hfile, hopen⟩ := h
      cases c with
      | openFile filename granted =>
          obtain ⟨message, hcall⟩ := call_openFile_of_file cls hfile filename granted
          rw [hcall]
          exact ⟨file, hfile, hopen⟩
      | closeFile =>
          rw [call_closeFile_of_file cls hfile]
          exact ⟨file, hfile, rfl⟩

end Calls

/-! ## Runs -/

theorem tracks_start : Tracks FileSession.start .unopened := ⟨rfl, rfl, rfl⟩

/-- The run lemma. -/
theorem tracks_run (cls : FileClass) (calls : List FileCall) :
    Tracks (FileSession.run cls calls) (Phase.after calls) := by
  induction calls using List.reverseRecOn with
  | nil => exact tracks_start
  | append_singleton calls c ih =>
      rw [FileSession.run_append_singleton, Phase.after_append_singleton]
      exact ih.call cls c

namespace NotReused

theorem of_append {calls rest : List FileCall} (h : NotReused (calls ++ rest)) :
    NotReused calls := by
  intro before c after hcalls hphase
  refine h before c (after ++ rest) ?_ hphase
  rw [hcalls, List.append_assoc, List.cons_append]

/-- Without reuse at most one handle is closed, and none before the release. -/
theorem length_closed_le {calls : List FileCall} (cls : FileClass) (h : NotReused calls) :
    (FileSession.run cls calls).io.closed.length ≤ 1 := by
  induction calls using List.reverseRecOn with
  | nil => exact Nat.zero_le 1
  | append_singleton calls c ih =>
      have hbefore := ih h.of_append
      have hafter := tracks_run cls (calls ++ [c])
      have htracks := tracks_run cls calls
      rw [Phase.after_append_singleton] at hafter
      rw [FileSession.run_append_singleton] at hafter ⊢
      cases hphase : Phase.after calls with
      | unopened =>
          rw [hphase] at hafter
          -- whatever the call, the stream is not released by it
          rw [hafter.closed_eq_nil (Phase.next_unopened_ne c)]
          exact Nat.zero_le 1
      | opened =>
          rw [hphase] at htracks
          have hclosed := htracks.closed_eq_nil fun h => Phase.noConfusion h
          obtain ⟨file, hfile, -, -⟩ := htracks
          cases c with
          | openFile filename granted =>
              obtain ⟨message, hcall⟩ := call_openFile_of_file cls hfile filename granted
              rw [hcall]
              exact hbefore
          | closeFile =>
              rw [call_closeFile_of_file cls hfile]
              show (file :: (FileSession.run cls calls).io.closed).length ≤ 1
              rw [hclosed]
              exact le_refl 1
      | released =>
          rw [hphase] at htracks
          obtain ⟨file, hfile, -⟩ := htracks
          obtain ⟨filename, rfl⟩ := h calls c [] rfl hphase
          obtain ⟨message, hcall⟩ := call_openFile_of_file cls hfile filename false
          rw [hcall]
          exact hbefore

end NotReused

/-- After a sequence that leaves no file open, the pointer is null exactly when no file
was ever opened. -/
theorem tracks_of_not_open {cls : FileClass} {calls : List FileCall}
    (hopen : (FileSession.run cls calls).isOpen = false) :
    (Phase.after calls = .unopened ∧ (FileSession.run cls calls).object.file = none) ∨
      (Phase.after calls = .released ∧
        ∃ file, (FileSession.run cls calls).object.file = some file) := by
  have htracks := tracks_run cls calls
  cases hphase : Phase.after calls with
  | unopened =>
      rw [hphase] at htracks
      exact Or.inl ⟨rfl, htracks.1⟩
  | opened =>
      rw [hphase] at htracks
      obtain ⟨file, -, hisOpen, -⟩ := htracks
      rw [hisOpen] at hopen
      exact absurd hopen Bool.true_eq_false.mp
  | released =>
      rw [hphase] at htracks
      obtain ⟨file, hfile, -⟩ := htracks
      exact Or.inr ⟨rfl, file, hfile⟩

theorem NotReused.obeysProtocol {calls : List FileCall} (cls : FileClass) (h : NotReused calls) :
    ObeysProtocol cls calls where
  nodup_closed := by
    have hlength := h.length_closed_le cls
    match (FileSession.run cls calls).io.closed, hlength with
    | [], _ => exact List.nodup_nil
    | [file], _ => exact List.nodup_singleton file
  close_unopened := by
    intro before after hcalls hopen
    rcases tracks_of_not_open hopen with ⟨-, hfile⟩ | ⟨hphase, -⟩
    · obtain ⟨message, hcall⟩ := call_closeFile_null cls hfile
      rw [hcall]
      exact ⟨rfl, rfl⟩
    · obtain ⟨filename, hclose⟩ := h before _ after hcalls hphase
      exact FileCall.noConfusion hclose
  open_unopened := by
    intro before filename after hcalls hopen
    rcases tracks_of_not_open hopen with ⟨-, hfile⟩ | ⟨hphase, -⟩
    · obtain ⟨outcome, object, io, hcall, hok, -⟩ :=
        call_openFile_null cls hfile filename true
      rw [hcall]
      exact hok
    · obtain ⟨filename', hdenied⟩ := h before _ after hcalls hphase
      exact Bool.noConfusion (FileCall.openFile.inj hdenied).2

theorem ObeysProtocol.notReused {cls : FileClass} {calls : List FileCall}
    (h : ObeysProtocol cls calls) : NotReused calls := by
  intro before c rest hcalls hphase
  have htracks := tracks_run cls before
  rw [hphase] at htracks
  obtain ⟨file, hfile, hopen⟩ := htracks
  match c, hcalls with
  | .openFile filename false, _ => exact ⟨filename, rfl⟩
  | .openFile filename true, hcalls =>
      have hok := h.open_unopened before filename rest hcalls hopen
      obtain ⟨message, hcall⟩ := call_openFile_of_file cls hfile filename true
      rw [hcall] at hok
      exact Bool.noConfusion hok
  | .closeFile, hcalls =>
      have herror := (h.close_unopened before rest hcalls hopen).1
      rw [call_closeFile_of_file cls hfile] at herror
      exact Bool.noConfusion herror

/-- A sequence of calls obeys the protocol exactly when it does not reuse the object. -/
theorem obeysProtocol_iff_notReused (cls : FileClass) (calls : List FileCall) :
    ObeysProtocol cls calls ↔ NotReused calls :=
  ⟨ObeysProtocol.notReused, NotReused.obeysProtocol cls⟩

/-- One file opened and closed, and closed again. -/
theorem read_close_twice :
    ¬ ObeysProtocol .read [.openFile "codes.bin" true, .closeFile, .closeFile] := by
  intro h
  exact absurd h.nodup_closed (by decide)

end ByteSlice
