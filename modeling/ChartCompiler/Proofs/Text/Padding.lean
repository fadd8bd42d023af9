import ChartCompiler.Text.Blank
import Mathlib.Data.List.TakeWhile

/-!
# Padded texts

A text with blanks around it, which trimming takes off again.

Results:

* `trimmed_trim`: trimming leaves no blank at an end.
* `trim_padded`: trimming takes off exactly the blanks around a text that has none at its ends.
* `exists_padded`: every text is padded, perhaps by nothing.
-/

namespace ChartCompiler.Text

/-- Only blank characters. -/
abbrev Blanks := {chars : List Char // ∀ c ∈ chars, isBlank c = true}

namespace Blanks

def none : Blanks := ⟨[], List.forall_mem_nil _⟩

def append (a b : Blanks) : Blanks :=
  ⟨a.1 ++ b.1, fun c h => (List.mem_append.1 h).elim (a.2 c) (b.2 c)⟩

theorem not_mem (b : Blanks) {c : Char} (hc : isBlank c = false) : c ∉ b.1 := fun h =>
  Bool.eq_false_iff.1 hc (b.2 c h)

end Blanks

/-- Neither end of the text is blank. -/
structure Trimmed (text : List Char) : Prop where
  head : ∀ c ∈ text.head?, isBlank c = false
  last : ∀ c ∈ text.getLast?, isBlank c = false

instance (text : List Char) : Decidable (Trimmed text) :=
  decidable_of_iff (text.head?.any isBlank = false ∧ text.getLast?.any isBlank = false) <| by
    rw [Option.any_eq_false, Option.any_eq_false]
    exact ⟨fun h => ⟨h.1, h.2⟩, fun h => ⟨h.head, h.last⟩⟩

theorem trimmed_nil : Trimmed [] := ⟨by simp, by simp⟩

theorem isBlank_of_head?_trimStart (text : List Char) {c : Char}
    (h : c ∈ (trimStart text).head?) : isBlank c = false := by
  have := List.head?_dropWhile_not isBlank text
  rw [trimStart] at h
  rw [h] at this
  simpa using this

/-- Trimming leaves no blank at an end. -/
theorem trimmed_trim (text : List Char) : Trimmed (trim text) := by
  constructor
  · intro c hc
    obtain ⟨r, -, hr⟩ := trimEnd_decompose (trimStart text)
    refine isBlank_of_head?_trimStart text ?_
    rw [hr, List.head?_append]
    exact Option.mem_def.2 (by rw [show (trimEnd (trimStart text)).head? = some c from hc]; rfl)
  · intro c hc
    refine isBlank_of_head?_trimStart (trimStart text).reverse ?_
    rwa [trim, trimEnd, List.getLast?_reverse] at hc

theorem trimStart_append {l : List Char} (hl : ∀ c ∈ l, isBlank c = true) (text : List Char) :
    trimStart (l ++ text) = trimStart text :=
  List.dropWhile_append_of_pos hl

theorem trimEnd_append {r : List Char} (hr : ∀ c ∈ r, isBlank c = true) (text : List Char) :
    trimEnd (text ++ r) = trimEnd text := by
  unfold trimEnd
  rw [List.reverse_append, List.dropWhile_append_of_pos fun c hc => hr c (List.mem_reverse.1 hc)]

theorem trimStart_eq_self {text : List Char} (h : ∀ c ∈ text.head?, isBlank c = false) :
    trimStart text = text := by
  cases text with
  | nil => rfl
  | cons c text => exact List.dropWhile_cons_of_neg (by simp [h c rfl])

theorem trimEnd_eq_self {text : List Char} (h : ∀ c ∈ text.getLast?, isBlank c = false) :
    trimEnd text = text := by
  have hreverse : trimStart text.reverse = text.reverse :=
    trimStart_eq_self fun c hc => h c (by rwa [List.head?_reverse] at hc)
  rw [trimEnd, ← trimStart, hreverse, List.reverse_reverse]

/-- Trimming takes off exactly the blanks around a text that has none at its ends. -/
theorem trim_append {l r core : List Char} (hl : ∀ c ∈ l, isBlank c = true)
    (hr : ∀ c ∈ r, isBlank c = true) (hcore : Trimmed core) : trim (l ++ core ++ r) = core := by
  rw [trim, List.append_assoc, trimStart_append hl]
  cases core with
  | nil =>
    have : trimStart r = [] := List.dropWhile_eq_nil_iff.2 hr
    rw [List.nil_append, this]
    rfl
  | cons c core =>
    have hstart : trimStart (c :: core ++ r) = c :: core ++ r :=
      trimStart_eq_self fun d hd => hcore.head d hd
    rw [hstart, trimEnd_append hr, trimEnd_eq_self hcore.last]

/-- A text with the blanks around it. -/
structure Padded where
  left : Blanks
  core : List Char
  right : Blanks
  trimmed : Trimmed core

def Padded.text (p : Padded) : List Char := p.left.1 ++ p.core ++ p.right.1

theorem Padded.mem_text (p : Padded) {c : Char} (hc : isBlank c = false) :
    c ∈ p.text ↔ c ∈ p.core := by
  simp [text, p.left.not_mem hc, p.right.not_mem hc]

theorem Padded.trim_text (p : Padded) : trim p.text = p.core :=
  trim_append p.left.2 p.right.2 p.trimmed

theorem exists_padded (text : List Char) : ∃ p : Padded, p.text = text := by
  obtain ⟨l, r, hl, hr, htext⟩ := trim_eq_infix text
  exact ⟨⟨⟨l, hl⟩, trim text, ⟨r, hr⟩, trimmed_trim text⟩, htext.symm⟩

theorem mem_trim {text : List Char} {c : Char} (h : c ∈ text) (hc : isBlank c = false) :
    c ∈ trim text := by
  obtain ⟨p, rfl⟩ := exists_padded text
  rw [p.trim_text]
  exact (p.mem_text hc).1 h

end ChartCompiler.Text
