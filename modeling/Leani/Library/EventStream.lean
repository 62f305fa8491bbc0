import Mathlib.Algebra.GroupWithZero.Nat
import Mathlib.Data.List.Basic

/-!
# Event streams

What a whole `text/event-stream` says: its lines, ended by CR, LF or CRLF, the fields of each block of
lines up to a blank one, and the event that a block with data gives. Events are bounded in size, and
a line has to be valid text.
-/

namespace Library.EventStream

open List

abbrev Line := List UInt8

def isEnd (byte : UInt8) : Bool := byte = 13 || byte = 10

def dropLf (bytes : List UInt8) : List UInt8 :=
  if bytes.head? = some 10 then bytes.tail else bytes

theorem length_dropLf (bytes : List UInt8) : (dropLf bytes).length ≤ bytes.length := by
  rw [dropLf]
  split
  · exact length_tail ▸ Nat.sub_le _ _
  · exact Nat.le_refl _

def byteOrderMark : List UInt8 := [0xEF, 0xBB, 0xBF]

def dropMark (bytes : List UInt8) : List UInt8 :=
  if byteOrderMark <+: bytes then bytes.drop 3 else bytes

def endLine (lines : List Line × Line) : List Line × Line := ([] :: lines.1, lines.2)

def prepend (start : Line) : List Line × Line → List Line × Line
  | ([], rest) => ([], start ++ rest)
  | (line :: lines, rest) => ((start ++ line) :: lines, rest)

def splitLines : List UInt8 → List Line × Line
  | [] => ([], [])
  | byte :: bytes =>
    if byte = 13 then endLine (splitLines (dropLf bytes))
    else if byte = 10 then endLine (splitLines bytes)
    else prepend [byte] (splitLines bytes)
termination_by bytes => bytes.length
decreasing_by
  · exact Nat.lt_succ_of_le (length_dropLf bytes)
  · exact Nat.lt_succ_self _
  · exact Nat.lt_succ_self _

def nameAndValue (line : Line) : List UInt8 × List UInt8 :=
  match line.dropWhile (· ≠ 58) with
  | [] => (line, [])
  | _ :: value =>
    (line.takeWhile (· ≠ 58), if value.head? = some 32 then value.tail else value)

def values (name : List UInt8) (block : List Line) : List (List UInt8) :=
  block.filterMap fun line =>
    if (nameAndValue line).1 = name then some (nameAndValue line).2 else none

structure Event where
  /-- `none` where no field, or one with an empty value, names the event last. -/
  name : Option (List UInt8)
  data : List UInt8

def ascii (text : String) : List UInt8 := text.toList.map fun char => UInt8.ofNat char.toNat

def eventOf (block : List Line) : Option Event :=
  if values (ascii "data") block = [] then none
  else some {
    name := (values (ascii "event") block).getLast?.filter (· ≠ [])
    data := [10].intercalate (values (ascii "data") block) }

inductive StreamError where
  | tooLong
  | notText
  deriving DecidableEq

def blockBytes (block : List Line) : Nat := (block.map (·.length + 1)).sum

section Interpret

variable (limit : Nat) (valid : Line → Bool)

def interpret (block : List Line) : List Line → Line → List Event × Option StreamError
  | [], rest => ([], if limit < blockBytes block + rest.length then some .tooLong else none)
  | line :: lines, rest =>
    if limit < blockBytes block + line.length then ([], some .tooLong)
    else if line = [] then
      let out := interpret [] lines rest
      ((eventOf block).toList ++ out.1, out.2)
    else if valid line then interpret (block ++ [line]) lines rest
    else ([], some .notText)

def interpretStream (bytes : List UInt8) : List Event × Option StreamError :=
  interpret limit valid [] (splitLines (dropMark bytes)).1 (splitLines (dropMark bytes)).2

end Interpret

theorem prepend_append (start next : Line) (lines : List Line × Line) :
    prepend (start ++ next) lines = prepend start (prepend next lines) := by
  obtain ⟨_ | ⟨_, lines⟩, _⟩ := lines
  · simp [prepend]
  · simp [prepend]

theorem prepend_nil (lines : List Line × Line) : prepend [] lines = lines := by
  obtain ⟨_ | ⟨_, lines⟩, _⟩ := lines
  · rfl
  · rfl

variable {start : Line}

theorem splitLines_append (h : ∀ byte ∈ start, isEnd byte = false)
    (bytes : List UInt8) : splitLines (start ++ bytes) = prepend start (splitLines bytes) := by
  induction start with
  | nil => exact (prepend_nil _).symm
  | cons byte start ih =>
    have hbyte : byte ≠ 13 ∧ byte ≠ 10 := by
      have := h byte mem_cons_self
      simpa [isEnd] using this
    rw [cons_append, splitLines, if_neg hbyte.1, if_neg hbyte.2,
      ih (forall_mem_cons.1 h).2, ← prepend_append]
    rfl

variable {line : Line}

theorem splitLines_of_forall (h : ∀ byte ∈ line, isEnd byte = false) :
    splitLines line = ([], line) := by
  have hsplit := splitLines_append h []
  rw [append_nil, splitLines, prepend, append_nil] at hsplit; exact hsplit

theorem splitLines_cr (h : ∀ byte ∈ line, isEnd byte = false) (bytes : List UInt8) :
    splitLines (line ++ 13 :: bytes) =
      (line :: (splitLines (dropLf bytes)).1, (splitLines (dropLf bytes)).2) := by
  rw [splitLines_append h, splitLines, if_pos rfl, endLine, prepend, append_nil]

theorem splitLines_lf (h : ∀ byte ∈ line, isEnd byte = false) (bytes : List UInt8) :
    splitLines (line ++ 10 :: bytes) = (line :: (splitLines bytes).1, (splitLines bytes).2) := by
  rw [splitLines_append h, splitLines, if_neg (by decide), if_pos rfl, endLine, prepend, append_nil]

theorem interpret_tooLong {limit : Nat} {valid : Line → Bool} {block : List Line} (h : ∀ byte ∈ start,
    isEnd byte = false) (hlong : limit < blockBytes block + start.length) (bytes : List UInt8) :
    interpret limit valid block (splitLines (start ++ bytes)).1 (splitLines (start ++ bytes)).2 =
    ([], some .tooLong) := by
  rw [splitLines_append h]
  obtain ⟨_ | ⟨line, _⟩, rest⟩ := splitLines bytes
  · have hall : limit < blockBytes block + (start ++ rest).length := by
      rw [length_append]; omega
    rw [prepend, interpret, if_pos hall]
  · have hall : limit < blockBytes block + (start ++ line).length := by
      rw [length_append]; omega
    rw [prepend, interpret, if_pos hall]

theorem values_concat (name : List UInt8) (block : List Line) (line : Line) :
    values name (block ++ [line]) = values name block ++
      if (nameAndValue line).1 = name then [(nameAndValue line).2] else [] := by
  rw [values, filterMap_append, ← values]
  split <;> simp [*]

theorem blockBytes_concat (block : List Line) (line : Line) :
    blockBytes (block ++ [line]) = blockBytes block + (line.length + 1) := by
  simp [blockBytes]

theorem intercalate_concat (sep : List UInt8) : ∀ texts : List (List UInt8), texts ≠ [] →
    texts.flatMap (· ++ sep) = sep.intercalate texts ++ sep
  | [], h => absurd rfl h
  | [text], _ => by simp [intercalate]
  | text :: next :: texts, _ => by
    have ih := intercalate_concat sep (next :: texts) (cons_ne_nil next texts)
    rw [flatMap_cons, ih]; simp [intercalate]

end Library.EventStream
