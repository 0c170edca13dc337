import Whittle.Json.Token

/-!
# Escaped texts are read back

Every escape is read as the character that it was written for: a short one by its letter, one
unit of sixteen bits by its four digits, and two units as a pair. After each character no half
of a pair is left waiting.
-/

namespace Whittle.Json

open Text

variable {c : Char} {toks toks' : List Token} {cursor cursor' : Cursor} {p : Partial}
  {rest : List Char}

/-- A character takes the reader one step further. -/
theorem tokensFrom_cons (h : advance toks c cursor = some (toks', cursor')) :
    tokensFrom toks cursor (c :: rest) = tokensFrom toks' cursor' rest := by
  rw [tokensFrom, h]

/-! ## Units -/

theorem hexValue?_hexDigit : ∀ d < 16, hexValue? (hexDigit d) = some d := by decide

theorem tokensFrom_hexDigit {k value d : Nat} (hk : k ≠ 3) (hd : d < 16) :
    tokensFrom toks (.unit p k value) (hexDigit d :: rest)
      = tokensFrom toks (.unit p (k + 1) (16 * value + d)) rest := by
  refine tokensFrom_cons ?_
  rw [advance, hexValue?_hexDigit d hd, Option.bind_eq_bind, Option.bind_some, if_neg hk]

theorem tokensFrom_hexDigit_last {value d : Nat} (hd : d < 16) :
    tokensFrom toks (.unit p 3 value) (hexDigit d :: rest)
      = tokensFrom toks (.text (p.pushUnit (16 * value + d))) rest := by
  refine tokensFrom_cons ?_
  rw [advance, hexValue?_hexDigit d hd, Option.bind_eq_bind, Option.bind_some, if_pos rfl]

/-- The escape of a unit is read as the unit. -/
theorem tokensFrom_unitEscape {n : Nat} (hn : n < 0x10000) :
    tokensFrom toks (.text p) (unitEscape n ++ rest)
      = tokensFrom toks (.text (p.pushUnit n)) rest := by
  have hdigits : unitEscape n = [backslash, 'u', hexDigit (n / 16 / 16 / 16 % 16),
      hexDigit (n / 16 / 16 % 16), hexDigit (n / 16 % 16), hexDigit (n % 16)] := rfl
  have hvalue : 16 * (16 * (16 * (16 * 0 + n / 16 / 16 / 16 % 16) + n / 16 / 16 % 16)
      + n / 16 % 16) + n % 16 = n := by omega
  have hlt : ∀ m, m % 16 < 16 := fun m => Nat.mod_lt m (by decide)
  rw [hdigits]
  simp only [List.cons_append, List.nil_append]
  rw [tokensFrom_cons (show _ = some (toks, .escape p) from rfl),
    tokensFrom_cons (show _ = some (toks, .unit p 0 0) from rfl),
    tokensFrom_hexDigit (by decide) (hlt _), tokensFrom_hexDigit (by decide) (hlt _),
    tokensFrom_hexDigit (by decide) (hlt _), tokensFrom_hexDigit_last (hlt _), hvalue]

/-- A character has no code point that is a half of a pair. -/
theorem not_isHalf_toNat : ¬ (0xd800 ≤ c.toNat ∧ c.toNat < 0xe000) ∧ c.toNat < 0x110000 := by
  have hvalid : c.toNat < 0xd800 ∨ 0xdfff < c.toNat ∧ c.toNat < 0x110000 := c.valid
  omega

theorem pushUnit_toNat : p.pushUnit c.toNat = p.push c := by
  have hvalid := not_isHalf_toNat (c := c)
  rw [Partial.pushUnit, if_neg (by omega), if_neg (by omega), Char.ofNat_toNat]

/-- The two units of a character beyond the first plane are put together again. -/
theorem pushUnit_pushUnit {m : Nat} (hc : c.toNat = 0x10000 + m) :
    (p.pushUnit (0xd800 + m / 0x400)).pushUnit (0xdc00 + m % 0x400) = p.push c := by
  have hlt := (not_isHalf_toNat (c := c)).2
  have hupper : p.pushUnit (0xd800 + m / 0x400) = ⟨p.settled, some (0xd800 + m / 0x400)⟩ := by
    rw [Partial.pushUnit, if_pos (by omega)]
  have hpair : 0x10000 + (0xd800 + m / 0x400 - 0xd800) * 0x400 + (0xdc00 + m % 0x400 - 0xdc00)
      = c.toNat := by omega
  rw [hupper, Partial.pushUnit, if_neg (by omega), if_pos (by omega)]
  simp only [hpair, Char.ofNat_toNat, Partial.push]

/-- The numeric escape of a character is read as the character. -/
theorem tokensFrom_unicodeEscape :
    tokensFrom toks (.text p) (unicodeEscape c ++ rest)
      = tokensFrom toks (.text (p.push c)) rest := by
  have hlt := (not_isHalf_toNat (c := c)).2
  simp only [unicodeEscape]
  split
  · rw [tokensFrom_unitEscape ‹_›, pushUnit_toNat]
  · rw [List.append_assoc, tokensFrom_unitEscape (by omega), tokensFrom_unitEscape (by omega),
      pushUnit_pushUnit (c := c) (by omega)]

/-! ## Texts -/

theorem unescape?_of_shortEscape? {e : Char} (h : shortEscape? c = some e) :
    e ≠ 'u' ∧ unescape? e = some c := by
  have hofNat : ∀ {n : Nat}, c.toNat = n → Char.ofNat n = c := by
    rintro _ rfl
    exact Char.ofNat_toNat c
  unfold shortEscape? at h
  split at h
  · rename_i hc
    cases h
    have hmark : c = doubleQuote ∨ c = backslash := by simpa using hc
    rcases hmark with rfl | rfl <;> exact ⟨by decide, by decide⟩
  iterate 3
    split at h
    · rename_i hc
      cases h
      rw [eq_of_beq hc]
      exact ⟨by decide, by decide⟩
  iterate 2
    split at h
    · rename_i hc
      cases h
      rw [← hofNat (eq_of_beq hc)]
      exact ⟨by decide, by decide⟩
  cases h

/-- A character of an escaped text is read as the character. -/
theorem tokensFrom_escapedChar (asciiOnly : Bool) :
    tokensFrom toks (.text p) (escapedChar asciiOnly c ++ rest)
      = tokensFrom toks (.text (p.push c)) rest := by
  unfold escapedChar
  split
  · rename_i e he
    obtain ⟨hu, hunescape⟩ := unescape?_of_shortEscape? he
    show tokensFrom toks (.escape p) (e :: rest) = _
    refine tokensFrom_cons ?_
    rw [advance, if_neg (by simpa using hu), hunescape]
    rfl
  · rename_i hshort
    split
    · exact tokensFrom_unicodeEscape
    · rename_i hplain
      have hmark : c ≠ doubleQuote ∧ c ≠ backslash := by
        constructor <;> rintro rfl <;> cases hshort
      refine tokensFrom_cons ?_
      rw [advance, if_neg (by simpa using hmark.1), if_neg (by simpa using hmark.2),
        if_neg fun hlt => hplain (by simp [hlt])]

theorem tokensFrom_flatMap_escapedChar (asciiOnly : Bool) (cs rev : List Char) :
    tokensFrom toks (.text ⟨rev, none⟩) (cs.flatMap (escapedChar asciiOnly) ++ rest)
      = tokensFrom toks (.text ⟨cs.reverse ++ rev, none⟩) rest := by
  induction cs generalizing rev with
  | nil => rfl
  | cons c cs ih =>
    rw [List.flatMap_cons, List.append_assoc, tokensFrom_escapedChar,
      show (Partial.mk rev none).push c = ⟨c :: rev, none⟩ from rfl, ih, List.reverse_cons,
      List.append_assoc, List.singleton_append]

/-- An escaped text is read as the text. -/
theorem tokensFrom_escaped (asciiOnly : Bool) (s : String) :
    tokensFrom toks .between ((escaped asciiOnly s).toList ++ rest)
      = tokensFrom (.text s :: toks) .between rest := by
  rw [escaped, String.toList_ofList, List.cons_append, List.cons_append, List.append_assoc,
    List.singleton_append, tokensFrom_cons (show _ = some (toks, .text ⟨[], none⟩) from rfl),
    tokensFrom_flatMap_escapedChar,
    tokensFrom_cons (show _ = some (.text s :: toks, .between) from ?_)]
  rw [advance, if_pos (beq_self_eq_true _), Partial.text, Partial.settled, List.append_nil,
    List.reverse_reverse, String.ofList_toList]

end Whittle.Json
