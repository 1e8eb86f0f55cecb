import Vhrn.Foundations.Bytes

/-!
# The words of a shell command

How a POSIX shell reads a text as words. Blanks separate words; a backslash, single quotes and double
quotes keep what they quote as it is, each in its own way, and are not part of the word. A text with an
operator, an expansion or a pattern outside quotes is no list of words.
-/

namespace Vhrn.Shell

/-- The quotes that the reader is inside of. -/
inductive Quoting
  | unquoted
  | single
  | double
  deriving DecidableEq, Repr

def isBlank (byte : UInt8) : Bool := byte == 32 || byte == 9

/-- The octets that mean something outside quotes: operators, expansions and patterns. -/
def isSpecial (byte : UInt8) : Bool :=
  [10, 124, 38, 59, 60, 62, 40, 41, 36, 96, 92, 42, 63, 91, 35, 126, 61, 37].contains byte

/-- The octets that a backslash quotes between double quotes. -/
def isEscapable (byte : UInt8) : Bool := [36, 96, 34, 92].contains byte

/-- The word so far, which begins with its first octet or its first quote. -/
def begun (word : Option Bytes) : Bytes := word.getD []

/-- The words of a text, after a part of which there is a word so far. -/
def wordsFrom : Quoting → Option Bytes → Bytes → Option (List Bytes)
  | .unquoted, word, [] => some word.toList
  | .unquoted, word, 92 :: 10 :: rest => wordsFrom .unquoted word rest
  | .unquoted, word, 92 :: byte :: rest => wordsFrom .unquoted (some (begun word ++ [byte])) rest
  | .unquoted, word, byte :: rest =>
    if byte = 39 then wordsFrom .single (some (begun word)) rest
    else if byte = 34 then wordsFrom .double (some (begun word)) rest
    else if isBlank byte then (wordsFrom .unquoted none rest).map (word.toList ++ ·)
    else if isSpecial byte then none
    else wordsFrom .unquoted (some (begun word ++ [byte])) rest
  | .single, _, [] => none
  | .single, word, byte :: rest =>
    if byte = 39 then wordsFrom .unquoted word rest
    else wordsFrom .single (some (begun word ++ [byte])) rest
  | .double, _, [] => none
  | .double, word, 92 :: 10 :: rest => wordsFrom .double word rest
  | .double, word, 92 :: byte :: rest =>
    wordsFrom .double
      (some (begun word ++ if isEscapable byte then [byte] else [92, byte])) rest
  | .double, word, byte :: rest =>
    if byte = 34 then wordsFrom .unquoted word rest
    else if byte = 36 || byte = 96 || byte = 92 then none
    else wordsFrom .double (some (begun word ++ [byte])) rest

/-- The words of a text. -/
def words (text : Bytes) : Option (List Bytes) := wordsFrom .unquoted none text

example : words (ascii "cp 'a b' c\\ d \"e\\\"f\"") =
    some [ascii "cp", ascii "a b", ascii "c d", ascii "e\"f"] := by decide +kernel

section

variable (word : Bytes) (rest : Bytes)

@[simp] theorem wordsFrom_quote : wordsFrom .unquoted (some word) (39 :: rest) =
    wordsFrom .single (some word) rest := by
  simp [wordsFrom, begun]

@[simp] theorem wordsFrom_unquote : wordsFrom .single (some word) (39 :: rest) =
    wordsFrom .unquoted (some word) rest := by
  simp [wordsFrom]

theorem wordsFrom_single {byte : UInt8} (h : byte ≠ 39) :
    wordsFrom .single (some word) (byte :: rest) = wordsFrom .single (some (word ++ [byte])) rest := by
  simp [wordsFrom, begun, h]

@[simp] theorem wordsFrom_escape : wordsFrom .unquoted (some word) (92 :: 39 :: rest) =
    wordsFrom .unquoted (some (word ++ [39])) rest := by
  simp [wordsFrom, begun]

end

end Vhrn.Shell
