import Ebnf.Text.Quoted
import Mathlib.Algebra.Group.Nat.Defs

/-!
# Reading quoted texts

A quoted text stands on one line and can be read back: its first character is the mark, an escape
tells by its letter how many digits follow, and no character but the backslash begins an escape.
Therefore different texts are shown differently.

## Main definitions

* `Quoted.hexValue` — the number that hexadecimal digits stand for.
* `Quoted.decodeChar?` — the first character of what stands between marks, and the rest.

## Main results

* `Quoted.hexValue_hex` — digits are read back.
* `Quoted.decodeChar?_encodeChar` — so are characters, whatever follows them.
* `Quoted.newline_notMem_encode` — a quoted text stands on one line.
* `quote_injective` — **texts that are shown alike are the same.**
-/

namespace Ebnf.Text

namespace Quoted

/-! ### Digits -/

/-- The value of a hexadecimal digit. -/
def digitOf (c : Char) : Nat := "0123456789abcdef".toList.idxOf c

/-- The number that hexadecimal digits stand for, the highest first. -/
def hexValue (digits : List Char) : Nat :=
  digits.foldl (fun value c => 16 * value + digitOf c) 0

theorem digitOf_digitChar : ∀ {n : Nat}, n < 16 → digitOf (Nat.digitChar n) = n := by
  decide

@[simp] theorem length_hex (width n : Nat) : (hex width n).length = width := by
  induction width generalizing n with
  | zero => rfl
  | succ width ih => rw [hex, List.length_append, ih, List.length_singleton]

/-- The digits stand for the number, as far as they go. -/
theorem hexValue_hex (width n : Nat) : hexValue (hex width n) = n % 16 ^ width := by
  induction width generalizing n with
  | zero => rw [Nat.pow_zero, Nat.mod_one]; rfl
  | succ width ih =>
    have hlast : digitOf (Nat.digitChar (n % 16)) = n % 16 :=
      digitOf_digitChar (Nat.mod_lt n (by decide))
    have hfront := ih (n / 16)
    rw [hexValue] at hfront
    rw [hex, hexValue, List.foldl_append, hfront, List.foldl_cons, List.foldl_nil, hlast,
      Nat.pow_succ', Nat.mod_mul, Nat.add_comm]

theorem hexValue_hex_of_lt {width n : Nat} (h : n < 16 ^ width) : hexValue (hex width n) = n := by
  rw [hexValue_hex, Nat.mod_eq_of_lt h]

theorem newline_notMem_hex (width n : Nat) : '\n' ∉ hex width n := by
  have hdigit : ∀ d < 16, Nat.digitChar d ≠ '\n' := by decide
  induction width generalizing n with
  | zero => exact List.not_mem_nil
  | succ width ih =>
    rw [hex, List.mem_append, List.mem_singleton, not_or]
    exact ⟨ih _, (hdigit _ (Nat.mod_lt n (by decide))).symm⟩

/-! ### Characters -/

/-- The character for a code point, if the digits of the code point come first. -/
def decodeCode (width : Nat) (text : List Char) : Char × List Char :=
  (Char.ofNat (hexValue (text.take width)), text.drop width)

/-- The first character of what stands between marks, and the rest. It reads what `encodeChar`
writes, without being told where that ends. -/
def decodeChar? : List Char → Option (Char × List Char)
  | [] => none
  | '\\' :: 'n' :: rest => some ('\n', rest)
  | '\\' :: 'r' :: rest => some ('\r', rest)
  | '\\' :: 't' :: rest => some ('\t', rest)
  | '\\' :: 'x' :: rest => some (decodeCode 2 rest)
  | '\\' :: 'u' :: rest => some (decodeCode 4 rest)
  | '\\' :: 'U' :: rest => some (decodeCode 8 rest)
  | '\\' :: c :: rest => some (c, rest)
  | c :: rest => some (c, rest)

theorem decodeCode_hex (width : Nat) {c : Char} (h : c.toNat < 16 ^ width) (rest : List Char) :
    decodeCode width (hex width c.toNat ++ rest) = (c, rest) := by
  rw [decodeCode, List.take_left' (length_hex _ _), List.drop_left' (length_hex _ _),
    hexValue_hex_of_lt h, Char.ofNat_toNat]

/-- The letter of an escape tells how many digits follow. -/
theorem decodeChar?_encodeCode (c : Char) (rest : List Char) :
    decodeChar? (encodeCode c.toNat ++ rest) = some (c, rest) := by
  have hmax : c.toNat < 16 ^ 8 := c.val.toNat_lt
  rw [encodeCode]
  split
  · next h => exact congrArg some (decodeCode_hex 2 (Nat.lt_succ_of_le h) rest)
  · split
    · next h => exact congrArg some (decodeCode_hex 4 (Nat.lt_succ_of_le h) rest)
    · exact congrArg some (decodeCode_hex 8 hmax rest)

/-- A character that begins no escape stands for itself. -/
theorem decodeChar?_of_ne {c : Char} (h : c ≠ '\\') (rest : List Char) :
    decodeChar? (c :: rest) = some (c, rest) := by
  rw [decodeChar?]
  all_goals
    intros
    contradiction

theorem mark_eq (text : List Char) : mark text = '"' ∨ mark text = '\'' := by
  rw [mark]
  split
  · exact Or.inl rfl
  · exact Or.inr rfl

variable {delimiter : Char}

/-- What is written for a character is read back, whatever follows it, so that nothing else can be
written in the same way. -/
theorem decodeChar?_encodeChar (hdelimiter : delimiter = '"' ∨ delimiter = '\'') (c : Char)
    (rest : List Char) : decodeChar? (encodeChar delimiter c ++ rest) = some (c, rest) := by
  rw [encodeChar]
  split
  · next h =>
    -- neither mark is a letter that stands for something else
    rcases h with rfl | rfl
    · rcases hdelimiter with rfl | rfl <;> rfl
    · rfl
  · next h =>
    rw [not_or] at h
    split
    · next hc => subst hc; rfl
    · split
      · next hc => subst hc; rfl
      · split
        · next hc => subst hc; rfl
        · split
          · exact decodeChar?_of_ne h.2 rest
          · exact decodeChar?_encodeCode c rest

theorem newline_notMem_encodeChar (hdelimiter : delimiter = '"' ∨ delimiter = '\'') (c : Char) :
    '\n' ∉ encodeChar delimiter c := by
  have hcode : '\n' ∉ encodeCode c.toNat := by
    have hhex := fun width => newline_notMem_hex width c.toNat
    rw [encodeCode]
    split
    · simp [hhex]
    · split <;> simp [hhex]
  rw [encodeChar]
  split
  · next h => rcases h with rfl | rfl <;> rcases hdelimiter with rfl | rfl <;> decide
  · split
    · decide
    · next hc =>
      split
      · decide
      · split
        · decide
        · split
          · exact fun hmem => hc (List.mem_singleton.mp hmem).symm
          · exact hcode

/-! ### Texts -/

/-- What is written for a text determines the text. -/
theorem flatMap_encodeChar_injective (hdelimiter : delimiter = '"' ∨ delimiter = '\'')
    {text text' : List Char}
    (h : text.flatMap (encodeChar delimiter) = text'.flatMap (encodeChar delimiter)) :
    text = text' := by
  -- the first character can be read off what is written, along with the rest
  have hread : ∀ c rest, decodeChar? ((c :: rest).flatMap (encodeChar delimiter))
      = some (c, rest.flatMap (encodeChar delimiter)) := by
    intro c rest
    rw [List.flatMap_cons, decodeChar?_encodeChar hdelimiter]
  induction text generalizing text' with
  | nil =>
    cases text' with
    | nil => rfl
    | cons c' text' =>
      have hfirst := hread c' text'
      rw [← h] at hfirst
      cases hfirst
  | cons c text ih =>
    have hfirst := hread c text
    rw [h] at hfirst
    cases text' with
    | nil => cases hfirst
    | cons c' text' =>
      obtain ⟨rfl, hrest⟩ := Prod.mk.inj (Option.some.inj ((hread c' text').symm.trans hfirst))
      rw [ih hrest.symm]

theorem encode_injective {text text' : List Char} (h : encode text = encode text') :
    text = text' := by
  obtain ⟨hmark, hbody⟩ := List.cons.inj h
  rw [← hmark] at hbody
  exact flatMap_encodeChar_injective (mark_eq text) (List.append_cancel_right hbody)

/-- A quoted text stands on one line, since newlines in it are escaped. -/
theorem newline_notMem_encode (text : List Char) : '\n' ∉ encode text := by
  have hmark : '\n' ≠ mark text := by
    rcases mark_eq text with h | h <;> rw [h] <;> decide
  rw [encode, List.mem_cons, List.mem_append, List.mem_singleton, List.mem_flatMap]
  rintro (h | ⟨c, -, hc⟩ | h)
  · exact hmark h
  · exact newline_notMem_encodeChar (mark_eq text) c hc
  · exact hmark h

end Quoted

/-- **Texts that are shown alike are the same.** The mark is told by the first character, and each
character by what is written for it. -/
theorem quote_injective {text text' : String} (h : quote text = quote text') : text = text' := by
  rw [quote, quote, String.ofList_inj] at h
  exact String.toList_inj.mp (Quoted.encode_injective h)

end Ebnf.Text
