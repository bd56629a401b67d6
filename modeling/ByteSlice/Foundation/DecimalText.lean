import Mathlib

/-!
# Unsigned numbers in text

Formatted input of an unsigned number of `w` bits, as a C++ stream does it in the
classic locale with the decimal base: white space is skipped, a sign may come first, and
the longest run of digits is the number.  A minus sign negates modulo `2 ^ w`.  No digits,
and a number that does not fit, are failures.

`extractAll` is what a loop of such extractions gets from a text before the first
failure; the results say what it gets from numbers that were printed.
-/

namespace Foundation

variable {w : Nat}

/-- White space of the classic locale: blank, tabulators, line and form feed, return. -/
def isSpace (c : Char) : Bool :=
  c.toNat == 32 || (9 ≤ c.toNat && c.toNat ≤ 13)

/-- An optional sign, and the text behind it. -/
def takeSign : List Char → Bool × List Char
  | '-' :: text => (true, text)
  | '+' :: text => (false, text)
  | text => (false, text)

/-- One extraction: the number and the text behind it, or a failure. -/
def extractUnsigned (w : Nat) (text : List Char) : Option (BitVec w × List Char) :=
  let (negative, body) := takeSign (text.dropWhile isSpace)
  let digits := body.takeWhile Char.isDigit
  let value := Nat.ofDigitChars 10 digits 0
  if digits = [] ∨ 2 ^ w ≤ value then none
  else some (if negative then -BitVec.ofNat w value else BitVec.ofNat w value,
    body.dropWhile Char.isDigit)

theorem length_takeSign_le (text : List Char) : (takeSign text).2.length ≤ text.length := by
  unfold takeSign
  split
  · exact Nat.le_succ _
  · exact Nat.le_succ _
  · exact Nat.le_refl _

/-- An extraction uses up part of the text. -/
theorem length_extractUnsigned_lt {text rest : List Char} {value : BitVec w}
    (h : extractUnsigned w text = some (value, rest)) : rest.length < text.length := by
  unfold extractUnsigned at h
  dsimp only at h
  split at h
  · contradiction
  · rename_i hdigits
    rw [not_or] at hdigits
    obtain ⟨_, rfl⟩ := Prod.mk.inj (Option.some.inj h)
    have hsplit := congrArg List.length (List.takeWhile_append_dropWhile (p := Char.isDigit)
      (l := (takeSign (text.dropWhile isSpace)).2))
    rw [List.length_append] at hsplit
    have hpos := List.length_pos_of_ne_nil hdigits.1
    have hsign := length_takeSign_le (text.dropWhile isSpace)
    have hspace := (List.dropWhile_suffix (p := isSpace) (l := text)).length_le
    omega

/-- All numbers up to the first failure. -/
def extractAll (w : Nat) (text : List Char) : List (BitVec w) :=
  match _h : extractUnsigned w text with
  | none => []
  | some (value, rest) => value :: extractAll w rest
termination_by text.length
decreasing_by exact length_extractUnsigned_lt _h

theorem extractAll_of_none {text : List Char} (h : extractUnsigned w text = none) :
    extractAll w text = [] := by
  rw [extractAll]
  split
  · rfl
  · simp_all

theorem extractAll_of_some {text rest : List Char} {value : BitVec w}
    (h : extractUnsigned w text = some (value, rest)) :
    extractAll w text = value :: extractAll w rest := by
  rw [extractAll]
  split
  · simp_all
  · rename_i hsome
    obtain ⟨rfl, rfl⟩ := Prod.mk.inj (Option.some.inj (h.symm.trans hsome))
    rfl

/-! ## Printed numbers -/

/-- A number as a stream prints it. -/
def printed (value : BitVec w) : List Char := Nat.toDigits 10 value.toNat

theorem printed_ne_nil (value : BitVec w) : printed value ≠ [] := Nat.toDigits_ne_nil

/-- White space is skipped before a number. -/
theorem extractUnsigned_space {space : List Char} (hspace : ∀ c ∈ space, isSpace c = true)
    (text : List Char) : extractUnsigned w (space ++ text) = extractUnsigned w text := by
  have hdrop : (space ++ text).dropWhile isSpace = text.dropWhile isSpace :=
    List.dropWhile_append_of_pos hspace
  unfold extractUnsigned
  rw [hdrop]

theorem extractAll_space {space : List Char} (hspace : ∀ c ∈ space, isSpace c = true)
    (text : List Char) : extractAll w (space ++ text) = extractAll w text := by
  have hsame := extractUnsigned_space (w := w) hspace text
  cases hnext : extractUnsigned w text with
  | none => rw [extractAll_of_none hnext, extractAll_of_none (hsame.trans hnext)]
  | some next => rw [extractAll_of_some hnext, extractAll_of_some (hsame.trans hnext)]

theorem toNat_of_isDigit {c : Char} (h : c.isDigit = true) : 48 ≤ c.toNat ∧ c.toNat ≤ 57 := by
  unfold Char.isDigit at h
  rw [Bool.and_eq_true, decide_eq_true_eq, decide_eq_true_eq] at h
  exact h

theorem isSpace_of_isDigit {c : Char} (h : c.isDigit = true) : isSpace c = false := by
  obtain ⟨hlow, _⟩ := toNat_of_isDigit h
  unfold isSpace
  rw [Bool.or_eq_false_iff, Bool.and_eq_false_iff, beq_eq_false_iff_ne, decide_eq_false_iff_not,
    decide_eq_false_iff_not]
  omega

theorem isDigit_of_isSpace {c : Char} (h : isSpace c = true) : c.isDigit = false := by
  cases hdigit : c.isDigit with
  | false => rfl
  | true =>
      rw [isSpace_of_isDigit hdigit] at h
      contradiction

/-- A text that starts with a digit starts with no space and no sign. -/
theorem takeSign_of_isDigit {c : Char} (h : c.isDigit = true) (text : List Char) :
    takeSign ((c :: text).dropWhile isSpace) = (false, c :: text) := by
  rw [List.dropWhile_cons_of_neg (by rw [isSpace_of_isDigit h]; exact Bool.false_ne_true)]
  unfold takeSign
  split
  · rename_i hminus
    rw [(List.cons.inj hminus).1] at h
    contradiction
  · rename_i hplus
    rw [(List.cons.inj hplus).1] at h
    contradiction
  · rfl

/-- A printed number is extracted, and the text behind it is left. -/
theorem extractUnsigned_printed (value : BitVec w) {rest : List Char}
    (hrest : ∀ c ∈ rest.head?, c.isDigit = false) :
    extractUnsigned w (printed value ++ rest) = some (value, rest) := by
  have hdigit : ∀ c ∈ printed value, c.isDigit = true := fun c hc =>
    Nat.isDigit_of_mem_toDigits (by decide) (Nat.le_refl 10) hc
  have hnone : rest.takeWhile Char.isDigit = [] ∧ rest.dropWhile Char.isDigit = rest := by
    cases rest with
    | nil => exact ⟨rfl, rfl⟩
    | cons c rest =>
        have hc := hrest c rfl
        exact ⟨List.takeWhile_cons_of_neg (by rw [hc]; exact Bool.false_ne_true),
          List.dropWhile_cons_of_neg (by rw [hc]; exact Bool.false_ne_true)⟩
  have hsign : takeSign ((printed value ++ rest).dropWhile isSpace) =
      (false, printed value ++ rest) := by
    obtain ⟨c, text, htext⟩ := List.exists_cons_of_ne_nil (printed_ne_nil value)
    have hc := hdigit c (by rw [htext]; exact List.mem_cons_self)
    rw [htext]
    exact takeSign_of_isDigit hc (text ++ rest)
  have hvalue : Nat.ofDigitChars 10 (printed value) 0 = value.toNat :=
    Nat.ofDigitChars_ten_toDigits
  unfold extractUnsigned
  rw [hsign]
  dsimp only
  rw [List.takeWhile_append_of_pos hdigit, List.dropWhile_append_of_pos hdigit, hnone.1, hnone.2,
    List.append_nil, hvalue, if_neg (not_or.mpr ⟨printed_ne_nil value, value.isLt.not_ge⟩),
    if_neg Bool.false_ne_true, BitVec.ofNat_toNat, BitVec.setWidth_eq]

/-- Numbers that were printed with white space behind each are extracted, and then what
follows them. -/
theorem extractAll_printed (items : List (BitVec w × List Char))
    (hspace : ∀ item ∈ items, item.2 ≠ [] ∧ ∀ c ∈ item.2, isSpace c = true)
    (rest : List Char) :
    extractAll w (items.flatMap (fun item => printed item.1 ++ item.2) ++ rest) =
      items.map Prod.fst ++ extractAll w rest := by
  induction items with
  | nil => rfl
  | cons item items ih =>
      obtain ⟨hne, hall⟩ := hspace item List.mem_cons_self
      have hrest := ih fun item' hmem => hspace item' (List.mem_cons_of_mem _ hmem)
      -- the space behind the number ends it, and is skipped before the next one
      have hhead : ∀ c ∈ (item.2 ++ (items.flatMap (fun item => printed item.1 ++ item.2) ++
          rest)).head?, c.isDigit = false := by
        obtain ⟨first, space, hcons⟩ := List.exists_cons_of_ne_nil hne
        intro c hc
        rw [hcons] at hc
        obtain rfl : first = c := Option.some.inj hc
        exact isDigit_of_isSpace (hall first (by rw [hcons]; exact List.mem_cons_self))
      rw [List.flatMap_cons, List.append_assoc, List.append_assoc,
        extractAll_of_some (extractUnsigned_printed item.1 hhead), extractAll_space hall, hrest]
      rfl

end Foundation
