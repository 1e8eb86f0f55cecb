import Vhrn.Cli.PolicyStore
import Vhrn.Foundations.Shell

/-!
# Quoted paths

Paths and arguments are quoted in two ways: for a shell, between single quotes, and for a reader of the
output, in printable characters. A shell reads the first as the word that was quoted
(`words_shellQuoteBytes`); the second can be read back one octet at a time from the front
(`readQuotedByte_quotedByte`), so that different paths have different texts.
-/

namespace Vhrn.Cli

/-! ## For a shell -/

/-- A text between single quotes. A single quote in it ends the quotes, is quoted by a backslash, and
opens them again. -/
def shellQuoteBytes (bytes : Bytes) : Bytes :=
  39 :: (bytes.flatMap fun byte => if byte = 39 then [39, 92, 39, 39] else [byte]) ++ [39]

/-- What stands between the quotes is the text. -/
theorem wordsFrom_quoted (bytes word rest : Bytes) :
    Shell.wordsFrom .single (some word)
      ((bytes.flatMap fun byte => if byte = 39 then [39, 92, 39, 39] else [byte]) ++ 39 :: rest) =
    Shell.wordsFrom .unquoted (some (word ++ bytes)) rest := by
  induction bytes generalizing word with
  | nil => simp
  | cons byte bytes ih =>
    rw [List.flatMap_cons, List.append_assoc]
    by_cases hquote : byte = 39
    · subst hquote
      simp [ih]
    · rw [if_neg hquote, List.singleton_append, Shell.wordsFrom_single _ _ hquote, ih]
      simp

theorem words_shellQuoteBytes_append (bytes rest : Bytes) :
    Shell.words (shellQuoteBytes bytes ++ rest) = Shell.wordsFrom .unquoted (some bytes) rest := by
  have hopen (text : Bytes) : Shell.words (39 :: text) = Shell.wordsFrom .single (some []) text := by
    simp [Shell.words, Shell.wordsFrom, Shell.begun]
  rw [shellQuoteBytes, List.cons_append, List.cons_append, List.append_assoc, hopen,
    List.singleton_append, wordsFrom_quoted, List.nil_append]

/-- **A shell reads a quoted text as one word**, the text. -/
theorem words_shellQuoteBytes (bytes : Bytes) : Shell.words (shellQuoteBytes bytes) = some [bytes] := by
  have h := words_shellQuoteBytes_append bytes []
  rw [List.append_nil] at h
  rw [h, Shell.wordsFrom]
  rfl

/-! ## For a reader -/

/-- The text of one octet of a path. -/
def quotedByte (byte : UInt8) : Bytes :=
  if byte = 34 then [92, 34]
  else if byte = 92 then [92, 92]
  else if 0x20 ≤ byte && byte ≤ 0x7E then [byte]
  else 92 :: 120 :: hexDigits byte

theorem quotePathBytes_eq (path : Bytes) :
    quotePathBytes path = 34 :: path.flatMap quotedByte ++ [34] := rfl

/-- The first octet of a quoted path, and what is behind its text. -/
def readQuotedByte : Bytes → Option (UInt8 × Bytes)
  | 92 :: 120 :: high :: low :: rest =>
    some (UInt8.ofNat (Numerals.value 16 [high, low]), rest)
  | 92 :: byte :: rest => some (byte, rest)
  | byte :: rest => some (byte, rest)
  | [] => none

/-- **An octet is read back from its text**, whatever follows. -/
theorem readQuotedByte_quotedByte (byte : UInt8) (rest : Bytes) :
    readQuotedByte (quotedByte byte ++ rest) = some (byte, rest) := by
  have hhex (byte : UInt8) :
      UInt8.ofNat (Numerals.value 16 (hexDigits byte)) = byte := by
    revert byte; exact forall_byte (by decide +kernel)
  unfold quotedByte
  split
  · rename_i h
    subst h
    rfl
  · rename_i hquote
    split
    · rename_i h
      subst h
      rfl
    · rename_i hescape
      split
      · simp [readQuotedByte, hescape]
      · have hread := hhex byte
        rw [hexDigits] at hread ⊢
        show some (_, rest) = _
        rw [hread]

/-- The octets of a path are read back one after the other. -/
theorem flatMap_quotedByte_inj {path path' : Bytes}
    (h : path.flatMap quotedByte = path'.flatMap quotedByte) : path = path' := by
  induction path generalizing path' with
  | nil =>
    cases path' with
    | nil => rfl
    | cons byte path' =>
      have hread := readQuotedByte_quotedByte byte (path'.flatMap quotedByte)
      rw [← List.flatMap_cons, ← h] at hread
      cases hread
  | cons byte path ih =>
    have hread := readQuotedByte_quotedByte byte (path.flatMap quotedByte)
    rw [← List.flatMap_cons, h] at hread
    cases path' with
    | nil => cases hread
    | cons byte' path' =>
      rw [List.flatMap_cons, readQuotedByte_quotedByte, Option.some.injEq, Prod.mk.injEq] at hread
      obtain ⟨rfl, hrest⟩ := hread
      rw [ih hrest.symm]

/-- **Different paths have different texts.** -/
theorem quotePathBytes_injective : Function.Injective quotePathBytes := by
  intro path path' h
  rw [quotePathBytes_eq, quotePathBytes_eq, List.append_left_inj, List.cons.injEq] at h
  exact flatMap_quotedByte_inj h.2

/-- The text of a path is printable. -/
theorem quotePathBytes_printable {path : Bytes} {b : UInt8} (hb : b ∈ quotePathBytes path) :
    0x20 ≤ b ∧ b ≤ 0x7E := by
  have hbyte (byte : UInt8) : (quotedByte byte).all (fun b => 0x20 ≤ b && b ≤ 0x7E) = true := by
    revert byte; exact forall_byte (by decide +kernel)
  rw [quotePathBytes_eq, List.mem_append, List.mem_cons, List.mem_flatMap, List.mem_singleton] at hb
  rcases hb with (rfl | ⟨byte, -, hb⟩) | rfl
  · decide
  · simpa using List.all_eq_true.mp (hbyte byte) b hb
  · decide

/-! ## Both -/

/-- What quoting promises. -/
structure QuotingLaw : Prop where
  /-- A shell reads a text quoted for it as the one word that it is. -/
  shell : ∀ bytes : Bytes, Shell.words (shellQuoteBytes bytes) = some [bytes]
  /-- Two paths do not print alike. -/
  injective : Function.Injective quotePathBytes
  /-- A printed path has no line feed and no other control octet. -/
  printable : ∀ path : Bytes, ∀ b ∈ quotePathBytes path, Ascii.isControl b = false ∧ b ≠ 10

/-- **Quoted texts are read back and printed paths cannot be mistaken.** -/
theorem quoting_round_trips : QuotingLaw where
  shell := words_shellQuoteBytes
  injective := quotePathBytes_injective
  printable path b hb := by
    have hplain (b : UInt8) : (0x20 ≤ b ∧ b ≤ 0x7E) → Ascii.isControl b = false ∧ b ≠ 10 := by
      revert b; exact forall_byte (by decide +kernel)
    exact hplain b (quotePathBytes_printable hb)

end Vhrn.Cli
