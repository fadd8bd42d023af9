import ChartCompiler.Json.Reader
import ChartCompiler.Text.Quoted
import Mathlib.Tactic.SplitIfs

/-!
# Reading string literals

A string literal is read back as the string that it was written for, whatever stands behind it.

Results:

* `Json.readString?_escapes`: each character is read back from what it is written as.
* `Json.readString?_quoted`: a literal is read back up to its closing quote.
-/

namespace ChartCompiler.Json

/-- What is read of a text, with one more character in front. -/
def readBehind (c : Char) (text : List Char) : Option (List Char × List Char) :=
  (readString? text).map fun r => (c :: r.1, r.2)

theorem readString?_short {c ch : Char} (hc : c ≠ 'u') (h : shortEscape? c = some ch)
    (tail : List Char) : readString? ('\\' :: c :: tail) = readBehind ch tail := by
  rw [readString?.eq_4 _ _ (fun _ _ _ _ _ _ _ _ _ hu => absurd hu hc)
    (fun _ _ _ _ _ hu => absurd hu hc), h]
  rfl

/-- An escape by number does not depend on what follows, which may be such an escape too. -/
theorem readString?_unicode {a b c d ch : Char} (h : (hex4? a b c d).bind scalar? = some ch)
    (tail : List Char) :
    readString? ('\\' :: 'u' :: a :: b :: c :: d :: tail) = readBehind ch tail := by
  obtain ⟨code, hcode, hch⟩ := Option.bind_eq_some_iff.1 h
  by_cases hnext : ∃ e f g h rest, tail = '\\' :: 'u' :: e :: f :: g :: h :: rest
  · obtain ⟨e, f, g, h, rest, rfl⟩ := hnext
    rw [readString?.eq_2, hcode]
    simp only [hch]
    rfl
  · rw [readString?.eq_3 _ _ _ _ _ fun e f g h rest htail => hnext ⟨e, f, g, h, rest, htail⟩, h]
    rfl

theorem readString?_plain {c : Char} (hquote : c ≠ '"') (hback : c ≠ '\\') (hc : ¬c.toNat < 0x20)
    (tail : List Char) : readString? (c :: tail) = readBehind c tail := by
  rw [readString?.eq_5 _ _ hquote (fun _ _ _ _ _ _ _ _ _ hb => absurd hb hback)
    (fun _ _ _ _ _ hb => absurd hb hback) (fun _ _ hb => absurd hb hback),
    if_neg (not_or.2 ⟨hback, hc⟩)]
  rfl

theorem scalar?_hex4? : ∀ n < 0x20,
    (hex4? '0' '0' (Text.hexDigit (n / 16)) (Text.hexDigit (n % 16))).bind scalar? =
      some (Char.ofNat n) := by
  decide

/-- A character is read back from what it is written as. -/
theorem readString?_escapes (c : Char) (tail : List Char) :
    readString? (Text.escapes c ++ tail) = readBehind c tail := by
  unfold Text.escapes
  split_ifs with hquote hback hb hf hn hr ht hcontrol
  · subst hquote
    exact readString?_short (by decide) rfl tail
  · subst hback
    exact readString?_short (by decide) rfl tail
  · subst hb
    exact readString?_short (by decide) rfl tail
  · subst hf
    exact readString?_short (by decide) rfl tail
  · subst hn
    exact readString?_short (by decide) rfl tail
  · subst hr
    exact readString?_short (by decide) rfl tail
  · subst ht
    exact readString?_short (by decide) rfl tail
  · have hch := scalar?_hex4? c.toNat hcontrol
    rw [Char.ofNat_toNat] at hch
    exact readString?_unicode hch tail
  · exact readString?_plain hquote hback hcontrol tail

/-- A literal is read back up to its closing quote. -/
theorem readString?_quoted (chars rest : List Char) :
    readString? (chars.flatMap Text.escapes ++ '"' :: rest) = some (chars, rest) := by
  induction chars with
  | nil => rw [List.flatMap_nil, List.nil_append, readString?]
  | cons c chars ih =>
    rw [List.flatMap_cons, List.append_assoc, readString?_escapes, readBehind, ih]
    rfl

end ChartCompiler.Json
