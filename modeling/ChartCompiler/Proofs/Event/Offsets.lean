import ChartCompiler.Proofs.Event.Acceptance
import ChartCompiler.Proofs.Event.Cuts

/-!
# Reading by byte offsets

The reader of offsets goes through a text as the reader of characters does. Every offset that it
comes to stands behind a piece of the text, so the byte or the piece that it takes there is there;
a loop goes on from a later offset, and the recursion from a shorter piece.

**Deviation**: as depths wrap around at 32 bits, the readers may differ on texts of `2 ^ 31` bytes
and more. The reader of offsets comes to an end on those as well; one that checks its depths may
halt.

Results:

* `partsFrom_append`, `filtersFrom_append`: the loops over parts and over filters.
* `stream_reads`: a stream is read.
* `selector_reads`: a selector is read, by induction on the depth of the recursion.
* `exists_outcome`: no text halts the reader, and what it reads from a short text.
-/

namespace ChartCompiler.Selector

open Text (Trimmed trim)

namespace Offsets

/-! ## Readings that come to an end -/

/-- A reading by offsets comes to an end, and for a short text it is that of another reader. -/
def Reads {α : Type} (short : Prop) (x : Except Halt α) (y : Except SelectorFault α) : Prop :=
  ∃ z : Except SelectorFault α, x = z.mapError .fault ∧ (short → z = y)

namespace Reads

variable {α β : Type} {short : Prop}

theorem mapError (y : Except SelectorFault α) : Reads short (y.mapError .fault) y :=
  ⟨y, rfl, fun _ => rfl⟩

theorem ok (a : α) : Reads short (.ok a) (.ok a) := mapError (.ok a)

theorem fault (f : SelectorFault) : Reads short (.error (.fault f) : Except Halt α) (.error f) :=
  mapError (.error f)

theorem congr {x : Except Halt α} {y y' : Except SelectorFault α} (hx : Reads short x y)
    (h : short → y = y') : Reads short x y' := by
  obtain ⟨z, hz, heq⟩ := hx
  exact ⟨z, hz, fun hs => (heq hs).trans (h hs)⟩

theorem bind {x : Except Halt α} {y : Except SelectorFault α} {f : α → Except Halt β}
    {g : α → Except SelectorFault β} (hx : Reads short x y)
    (hf : ∀ a, x = .ok a → Reads short (f a) (g a)) : Reads short (x >>= f) (y >>= g) := by
  obtain ⟨z, rfl, heq⟩ := hx
  cases z with
  | error e => exact ⟨.error e, rfl, fun hs => by rw [← heq hs]; rfl⟩
  | ok a => exact (hf a rfl).congr fun hs => by rw [← heq hs]; rfl

theorem map {x : Except Halt α} {y : Except SelectorFault α} (hx : Reads short x y) (f : α → β) :
    Reads short (x >>= fun a => pure (f a)) (y.map f) := by
  obtain ⟨z, rfl, heq⟩ := hx
  refine ⟨z.map f, ?_, fun hs => by rw [heq hs]⟩
  cases z <;> rfl

theorem mapM {f : α → Except Halt β} {g : α → Except SelectorFault β} {l : List α}
    (h : ∀ a ∈ l, Reads short (f a) (g a)) : Reads short (l.mapM f) (l.mapM g) := by
  induction l with
  | nil => exact ok []
  | cons a l ih =>
    rw [List.mapM_cons, List.mapM_cons]
    refine (h a List.mem_cons_self).bind fun b _ => ?_
    refine (ih fun a ha => h a (List.mem_cons_of_mem _ ha)).bind fun bs _ => ?_
    exact ok (b :: bs)

end Reads

@[simp]
theorem ok_bind {α β : Type} (a : α) (f : α → Except Halt β) : (Except.ok a >>= f) = f a := rfl

/-! ## Parts -/

theorem size_le_of_infix {a b : List Char} (h : a <:+: b) : size a ≤ size b := by
  obtain ⟨l, r, rfl⟩ := h
  rw [size_append, size_append]
  omega

theorem isInfix_trim (text : List Char) : trim text <:+: text := by
  obtain ⟨l, r, -, -, h⟩ := Text.trim_eq_infix text
  exact ⟨l, r, h.symm⟩

section

variable {checked : Bool} {rounds : Nat}

theorem partsFrom_end {text : List Char} {left start : Nat} (hleft : 0 < left)
    (h : size text ≤ start) : partsFrom checked rounds text left start = .ok [] := by
  obtain ⟨left, rfl⟩ := Nat.exists_eq_add_of_lt hleft
  rw [partsFrom, if_neg (Nat.not_lt_of_le h)]

/-- One round: a part is cut out, and the loop goes on behind the separator. -/
theorem partsFrom_step (front part rest : List Char) (left : Nat) {output : List (List Char)}
    (hne : part ++ rest ≠ [])
    (hsearch : search checked rounds ',' ['[', '\x7b'] [']', '\x7d'] (front ++ part ++ rest)
      (size front) = .ok (size (front ++ part)))
    (hrest : partsFrom checked rounds (front ++ part ++ rest) left (size (front ++ part) + 1) =
      .ok output) :
    partsFrom checked rounds (front ++ part ++ rest) (left + 1) (size front) =
      .ok (trim part :: output) := by
  have hstart : size front < size (front ++ part ++ rest) := by
    have := Nat.pos_of_ne_zero (mt size_eq_zero.1 hne)
    rw [List.append_assoc, size_append]
    omega
  rw [partsFrom, if_pos hstart, hsearch, ok_bind, slice_append, ok_bind, hrest]
  rfl

variable {short : Prop} (hchecked : checked = true → short)

include hchecked in
theorem partsFrom_append {left : Nat} : ∀ (front back : List Char),
    Fits rounds short (front ++ back) → size back < left →
    ∃ output, partsFrom checked rounds (front ++ back) left (size front) = .ok output ∧
      (short → output = Selector.parts back) ∧ ∀ part ∈ output, Trimmed part ∧ part <:+: back := by
  induction left with
  | zero => exact fun _ _ _ h => absurd h (Nat.not_lt_zero _)
  | succ left ih =>
    intro front back hfits hleft
    by_cases hback : back = []
    · subst hback
      refine ⟨[], partsFrom_end (Nat.succ_pos _) (by simp), fun _ => rfl, List.forall_mem_nil _⟩
    have hpos : 0 < size back := Nat.pos_of_ne_zero (mt size_eq_zero.1 hback)
    obtain ⟨found, hfound, hsearch⟩ := search_append hchecked ',' ['[', '\x7b'] [']', '\x7d']
      front back hfits (by decide) (by decide) (by decide)
    cases found with
    | none =>
      have hstep := partsFrom_step front back [] left (by simpa using hback)
        (by rw [List.append_nil]; exact hsearch) (partsFrom_end (by omega) (by simp))
      rw [List.append_nil] at hstep
      refine ⟨_, hstep, fun hs => ?_, ?_⟩
      · exact (parts_of_unbroken hback (hfound.eq_breakAt hs).symm).symm
      · simpa using ⟨Text.trimmed_trim back, isInfix_trim back⟩
    | some r =>
      obtain ⟨part, rest⟩ := r
      obtain rfl : back = part ++ ',' :: rest := hfound.split _ rfl
      have hassoc : front ++ (part ++ ',' :: rest) = front ++ part ++ [','] ++ rest := by simp
      have hsize : size (front ++ part ++ [',']) = size (front ++ part) + 1 :=
        IsAscii.size_concat (by decide) _
      have hrest : size rest < left := by
        rw [size_append, IsAscii.size_cons (by decide)] at hleft
        omega
      obtain ⟨output, hrest, houtput, hparts⟩ := ih (front ++ part ++ [',']) rest (hassoc ▸ hfits)
        hrest
      rw [← hassoc, ← List.append_assoc, hsize] at hrest
      have hstep := partsFrom_step front part (',' :: rest) left (by simp)
        (by rw [List.append_assoc]; exact hsearch) hrest
      rw [List.append_assoc] at hstep
      refine ⟨_, hstep, fun hs => ?_, ?_⟩
      · rw [parts_of_breakAt (hfound.eq_breakAt hs).symm, houtput hs]
      · rintro p hp
        rcases List.mem_cons.1 hp with rfl | hp
        · exact ⟨Text.trimmed_trim part, (isInfix_trim part).trans ⟨[], ',' :: rest, rfl⟩⟩
        · obtain ⟨htrimmed, hinfix⟩ := hparts p hp
          exact ⟨htrimmed, hinfix.trans ⟨part ++ [','], [], by simp⟩⟩

/-! ## Filters -/

theorem nextFilter_append (front rest : List Char) :
    nextFilter (front ++ ']' :: rest) (size front) =
      match rest with
      | [] => .ok (size front + 1)
      | c :: _ => if c = '[' then .ok (size front + 2) else .error (.fault .expectedBracket) := by
  have hsize : less (size (front ++ ']' :: rest)) 1 = .ok (size front + size rest) := by
    rw [size_append, IsAscii.size_cons (by decide), less, if_pos (by omega)]
    exact congrArg Except.ok (by omega)
  rw [nextFilter, hsize, ok_bind]
  cases rest with
  | nil => rw [size_nil, Nat.add_zero, if_neg (Nat.lt_irrefl _)]; rfl
  | cons c rest =>
    have hassoc : front ++ ']' :: c :: rest = front ++ [']'] ++ c :: rest := by simp
    have hnext : size (front ++ [']']) = size front + 1 := IsAscii.size_concat (by decide) _
    have hpos := c.utf8Size_pos
    obtain ⟨b, hbyte, hb⟩ := byteAt_size (front ++ [']']) rest c
    rw [← hassoc, hnext] at hbyte
    rw [if_pos (by rw [size_cons]; omega), hbyte, ok_bind]
    by_cases hc : c = '['
    · rw [if_neg (not_not_intro ((hb _ (by decide)).2 hc))]
      exact (if_pos hc).symm
    · rw [if_pos (mt (hb _ (by decide)).1 hc)]
      exact (if_neg hc).symm

theorem filters_unclosed {text : List Char} (h : ']' ∉ text) :
    filters [] text = .error .unmatchedBracket := by
  have hfilters := filters_append h [] []
  rwa [List.append_nil] at hfilters

/-- The filters behind the first one's closing bracket. -/
theorem filters_stop {filter : List Char} (h : ']' ∉ filter) (rest : List Char) :
    filters [] (filter ++ ']' :: rest) =
      match rest with
      | [] => .ok [String.ofList (trim filter)]
      | c :: more =>
        if c = '[' then
          if more = [] then .ok [String.ofList (trim filter)]
          else (filters [] more).map (String.ofList (trim filter) :: ·)
        else .error .expectedBracket := by
  have htrim : trim (filter.reverse ++ []).reverse = trim filter := by simp
  rw [filters_append h, ← htrim]
  rcases rest with _ | ⟨c, more⟩
  · rfl
  · by_cases hc : c = '['
    · subst hc
      cases more <;> rfl
    · simp [filters, hc]

theorem filtersFrom_end {text : List Char} {left start : Nat} (hleft : 0 < left)
    (h : size text ≤ start) : filtersFrom checked rounds text left start = .ok [] := by
  obtain ⟨left, rfl⟩ := Nat.exists_eq_add_of_lt hleft
  rw [filtersFrom, if_neg (Nat.not_lt_of_le h)]

/-- One round: a filter is cut out, and the loop goes on where the next filter starts. -/
theorem filtersFrom_step (front filter rest : List Char) (left : Nat)
    (hsearch : search checked rounds ']' [] [] (front ++ filter ++ ']' :: rest) (size front) =
      .ok (size (front ++ filter))) :
    filtersFrom checked rounds (front ++ filter ++ ']' :: rest) (left + 1) (size front) =
      nextFilter (front ++ filter ++ ']' :: rest) (size (front ++ filter)) >>= fun next =>
        filtersFrom checked rounds (front ++ filter ++ ']' :: rest) left next >>= fun others =>
          pure (String.ofList (trim filter) :: others) := by
  have hbehind : size (front ++ filter) < size (front ++ filter ++ ']' :: rest) := by
    rw [size_append _ (']' :: rest), IsAscii.size_cons (by decide)]
    omega
  have hstart : size front ≤ size (front ++ filter) := by
    rw [size_append]
    omega
  rw [filtersFrom, if_pos (by omega), hsearch, ok_bind, if_neg (by omega), slice_append]
  rfl

include hchecked in
theorem filtersFrom_append {left : Nat} : ∀ (front back : List Char),
    Fits rounds short (front ++ back) → back ≠ [] → size back < left →
    Reads short (filtersFrom checked rounds (front ++ back) left (size front))
      (filters [] back) := by
  induction left with
  | zero => exact fun _ _ _ _ h => absurd h (Nat.not_lt_zero _)
  | succ left ih =>
    intro front back hfits hback hleft
    have hpos : 0 < size back := Nat.pos_of_ne_zero (mt size_eq_zero.1 hback)
    obtain ⟨found, hfound, hsearch⟩ := search_append hchecked ']' [] [] front back hfits
      (by decide) (by decide) (by decide)
    cases found with
    | none =>
      have hstart : size front < size (front ++ back) := by
        rw [size_append]
        omega
      rw [filtersFrom, if_pos hstart, hsearch, ok_bind, offsetOf_none, if_pos rfl]
      exact (Reads.fault _).congr fun hs =>
        (filters_unclosed (unbroken_plain.1 (hfound.eq_breakAt hs).symm)).symm
    | some r =>
      obtain ⟨filter, rest⟩ := r
      obtain rfl : back = filter ++ ']' :: rest := hfound.split _ rfl
      refine Reads.congr ?_ fun hs =>
        (filters_stop (breakAt_first_eq_some (hfound.eq_breakAt hs).symm).2 rest).symm
      rw [← List.append_assoc] at hfits hsearch ⊢
      rw [filtersFrom_step front filter rest left hsearch, nextFilter_append]
      have hsize : size (front ++ filter ++ ']' :: rest) =
          size (front ++ filter) + 1 + size rest := by
        rw [size_append _ (']' :: rest), IsAscii.size_cons (by decide)]
        omega
      have hrest : size rest < left := by
        rw [size_append, IsAscii.size_cons (by decide)] at hleft
        omega
      rcases rest with _ | ⟨c, more⟩
      · rw [size_nil, Nat.add_zero] at hsize
        rw [ok_bind, filtersFrom_end (by omega) (Nat.le_of_eq hsize)]
        exact .ok _
      by_cases hc : c = '['
      · subst hc
        simp only [if_true, ok_bind]
        rw [IsAscii.size_cons (by decide)] at hsize hrest
        by_cases hmore : more = []
        · subst hmore
          rw [size_nil] at hsize
          rw [if_pos rfl, filtersFrom_end (by omega) (by omega)]
          exact .ok _
        · have hassoc : front ++ filter ++ ']' :: '[' :: more =
            front ++ filter ++ [']', '['] ++ more := by simp
          have hnext : size (front ++ filter) + 2 = size (front ++ filter ++ [']', '[']) := by
            rw [size_append _ [']', '[']]
            rfl
          rw [if_neg hmore, hnext, hassoc]
          exact (ih _ more (hassoc ▸ hfits) hmore (by omega)).map _
      · simp only [if_neg hc]
        exact .fault _

/-! ## Streams -/

include hchecked in
theorem origin_append {passed : List Char} (hpassed : ':' ∉ passed) (back : List Char)
    (hfits : Fits rounds short (passed ++ back)) :
    ∃ found, Found ':' [] [] short 0 (passed ++ back) found ∧
      origin checked rounds (passed ++ back) (size passed) =
        .ok (found.elim (none, 0, size passed) fun r =>
          (some (trim r.1), size r.1 + 1, size r.1 + 1)) := by
  obtain ⟨found, hfound, hsearch⟩ := search_plain hchecked ':' [] passed back hfits
    (by decide) hpassed
  rw [List.nil_append, List.nil_append] at hsearch
  refine ⟨found, hfound, ?_⟩
  rw [origin, hsearch, ok_bind]
  cases found with
  | none =>
    rw [offsetOf_none, List.nil_append, if_neg (Nat.lt_irrefl _)]
    rfl
  | some r =>
    obtain ⟨a, rest⟩ := r
    have htext : passed ++ back = a ++ ':' :: rest := hfound.split _ rfl
    have hcolon : size a < size (a ++ ':' :: rest) := by
      rw [size_append, IsAscii.size_cons (by decide)]
      omega
    have hslice := slice_append [] a (':' :: rest)
    rw [List.nil_append] at hslice
    rw [offsetOf_some, List.nil_append, htext, if_pos hcolon]
    exact congrArg (· >>= _) hslice

/-- The type and the filters behind an origin. -/
def readType (rest : List Char) : Except SelectorFault (List Char × Option (List String)) :=
  (splitFilters rest).2.mapM (filters []) >>= fun filter =>
    pure (trim (splitFilters rest).1, filter)

include hchecked in
theorem typeAndFilters_append (front passed back : List Char) (hpassed : '[' ∉ passed)
    (hfits : Fits rounds short (front ++ (passed ++ back))) :
    Reads short (typeAndFilters checked rounds (front ++ (passed ++ back)) (size front)
      (size (front ++ passed))) (readType (passed ++ back)) := by
  obtain ⟨found, hfound, hsearch⟩ := search_plain hchecked '[' front passed back hfits
    (by decide) hpassed
  generalize passed ++ back = rest at *
  rw [typeAndFilters, hsearch, ok_bind]
  cases found with
  | none =>
    have hslice := slice_append front rest []
    rw [List.append_nil] at hslice
    rw [offsetOf_none, if_pos rfl, hslice]
    refine (Reads.ok (trim rest, none)).congr fun hs => ?_
    rw [readType, splitFilters, ← hfound.eq_breakAt hs]
    rfl
  | some r =>
    obtain ⟨type, tail⟩ := r
    obtain rfl : rest = type ++ '[' :: tail := hfound.split _ rfl
    have hread : short → readType (type ++ '[' :: tail) =
        (filters [] tail).map fun filters => (trim type, some filters) := fun hs => by
      rw [readType, splitFilters, ← hfound.eq_breakAt hs]
      simp only [Option.mapM_some]
      cases filters [] tail <;> rfl
    have hsize : size (front ++ (type ++ '[' :: tail)) = size (front ++ type) + 1 + size tail := by
      rw [← List.append_assoc, size_append _ ('[' :: tail), IsAscii.size_cons (by decide)]
      omega
    have hslice := slice_append front type ('[' :: tail)
    rw [List.append_assoc] at hslice
    refine Reads.congr ?_ fun hs => (hread hs).symm
    rw [offsetOf_some, if_neg (by omega), hslice, ok_bind]
    by_cases htail : tail = []
    · subst htail
      rw [size_nil, Nat.add_zero] at hsize
      rw [if_pos hsize.symm]
      exact .fault _
    · have hpos : 0 < size tail := Nat.pos_of_ne_zero (mt size_eq_zero.1 htail)
      have hassoc : front ++ (type ++ '[' :: tail) = front ++ type ++ ['['] ++ tail := by simp
      have hnext : size (front ++ type) + 1 = size (front ++ type ++ ['[']) :=
        (IsAscii.size_concat (by decide) _).symm
      have hrounds := hfits.rounds
      rw [if_neg (by omega), hnext, hassoc]
      exact (filtersFrom_append hchecked _ tail (hassoc ▸ hfits) htail (by omega)).map _

/-- The first character stays, unless it is blank. -/
theorem head?_trim {a : List Char} (h : ∀ c ∈ a.head?, Text.isBlank c = false) :
    (trim a).head? = a.head? := by
  obtain ⟨right, ha⟩ := exists_trimmed_start a h
  by_cases hne : trim a = []
  · cases a with
    | nil => rw [hne]
    | cons c a => exact absurd (hne ▸ Text.mem_trim List.mem_cons_self (h c rfl)) List.not_mem_nil
  · conv_rhs => rw [ha]
    rw [List.head?_append_of_ne_nil _ hne]

theorem withOrigin_eq (defaultSource : String) {isMark : Bool} {origin : Option (List Char)}
    (h : ∀ w ∈ origin, isMark = true ↔ w.head? = some '@') :
    withOrigin defaultSource isMark origin = .ok (Selector.withOrigin defaultSource origin) := by
  cases origin with
  | none => rfl
  | some w =>
    have hw := h w rfl
    cases isMark with
    | true =>
      obtain ⟨name, rfl⟩ := List.head?_eq_some_iff.1 (hw.1 rfl)
      have hslice : slice ('@' :: name) 1 (size ('@' :: name)) = .ok name := by
        have hslice := slice_append ['@'] name []
        rwa [List.append_nil] at hslice
      simp only [withOrigin, if_true, hslice, ok_bind]
      rfl
    | false =>
      have hhead : ∀ name, w ≠ '@' :: name := by
        rintro name rfl
        exact absurd (hw.2 rfl) Bool.false_ne_true
      unfold Selector.withOrigin
      split
      next hnone => cases hnone
      next name hname => exact absurd (Option.some.inj hname) (hhead name)
      next origin _ horigin =>
        obtain rfl := Option.some.inj horigin
        simp only [withOrigin, Bool.false_eq_true, if_false]
        split <;> rfl

/-- The stream of an origin, a type and filters, unless the type may not be one. -/
def ofParts (defaultSource : String) (origin : Option (List Char))
    (t : List Char × Option (List String)) : Except SelectorFault EventStream :=
  if t.1.isEmpty || t.1.any isPunctuation then .error .eventType
  else .ok { withType (Selector.withOrigin defaultSource origin) t.1 with filter := t.2 }

theorem assemble_reads (defaultSource : String) {isMark : Bool} (origin : Option (List Char))
    (h : ∀ w ∈ origin, isMark = true ↔ w.head? = some '@') (t : List Char × Option (List String)) :
    Reads short (assemble defaultSource isMark origin t.1 t.2)
      (ofParts defaultSource origin t) := by
  rw [assemble, withOrigin_eq defaultSource h, ofParts]
  split
  · exact .fault _
  · exact .ok _

theorem unthrottled_eq_readType (defaultSource : String) {text rest : List Char} (hne : text ≠ [])
    {origin : Option (List Char)} (horigin : splitOrigin text = (origin, rest)) :
    Selector.unthrottled defaultSource text = readType rest >>= ofParts defaultSource origin := by
  obtain ⟨type, tail, hfilters⟩ : ∃ type tail, splitFilters rest = (type, tail) := ⟨_, _, rfl⟩
  rw [unthrottled_eq hne horigin hfilters, readType, hfilters]
  cases tail.mapM (filters []) <;> rfl

theorem head?_origin {text a rest : List Char} (htrimmed : Trimmed text)
    (htext : text = a ++ ':' :: rest) :
    text.head? = some '@' ↔ (trim a).head? = some '@' := by
  cases a with
  | nil =>
    subst htext
    simp [trim, Text.trimStart, Text.trimEnd]
  | cons c a =>
    have hhead : text.head? = (c :: a).head? := by rw [htext]; rfl
    rw [head?_trim (hhead ▸ htrimmed.head), hhead]

/-- The searches of a stream pass over the character of a mark name at first. -/
theorem exists_passed {text : List Char} {isMark : Bool}
    (h : isMark = true ↔ text.head? = some '@') : ∃ passed back, text = passed ++ back ∧
      size passed = isMark.toNat ∧ ':' ∉ passed ∧ '[' ∉ passed := by
  cases isMark with
  | true =>
    obtain ⟨rest, hrest⟩ := List.head?_eq_some_iff.1 (h.1 rfl)
    exact ⟨['@'], rest, hrest, rfl, by decide, by decide⟩
  | false => exact ⟨[], text, rfl, rfl, List.not_mem_nil, List.not_mem_nil⟩

include hchecked in
/-- A stream without its throttle is read. -/
theorem unthrottled_reads (defaultSource : String) {text : List Char} (htrimmed : Trimmed text)
    (hfits : Fits rounds short text) :
    Reads short (unthrottled checked rounds defaultSource text)
      (Selector.unthrottled defaultSource text) := by
  cases text with
  | nil => exact .fault _
  | cons c rest =>
    obtain ⟨b, hbyte, hb⟩ := byteAt_size [] rest c
    have hbyte : byteAt (bytes (c :: rest)) 0 = .ok b := hbyte
    have hmark : (b == '@'.toUInt8) = true ↔ (c :: rest).head? = some '@' := by
      rw [beq_iff_eq, hb _ (by decide), List.head?_cons, Option.some.injEq]
    obtain ⟨passed, back, htext, hsize, hcolon, hbracket⟩ := exists_passed hmark
    have hne : c :: rest ≠ [] := List.cons_ne_nil _ _
    rw [unthrottled, if_neg (by simp), hbyte]
    simp only [ok_bind, ← hsize]
    generalize (b == '@'.toUInt8) = isMark at hmark
    rw [htext] at hmark htrimmed hfits hne ⊢
    obtain ⟨found, hfound, horigin⟩ := origin_append hchecked hcolon back hfits
    rw [horigin, ok_bind]
    cases found with
    | none =>
      have htype := typeAndFilters_append hchecked [] passed back hbracket hfits
      refine (htype.bind fun t _ => assemble_reads defaultSource none (by simp) t).congr
        fun hs => ?_
      have hsplit : splitOrigin (passed ++ back) = (none, passed ++ back) := by
        rw [splitOrigin_eq, ← hfound.eq_breakAt hs]
        rfl
      exact (unthrottled_eq_readType _ hne hsplit).symm
    | some r =>
      obtain ⟨a, tail⟩ := r
      have ha : passed ++ back = a ++ ':' :: tail := hfound.split _ rfl
      have hassoc : a ++ ':' :: tail = a ++ [':'] ++ ([] ++ tail) := by simp
      have hstart : size (a ++ [':']) = size a + 1 := IsAscii.size_concat (by decide) _
      have htype := typeAndFilters_append hchecked (a ++ [':']) [] tail List.not_mem_nil
        (by rwa [← hassoc, ← ha])
      rw [← hassoc, ← ha, List.append_nil, hstart] at htype
      have horigin : ∀ w ∈ some (trim a), isMark = true ↔ w.head? = some '@' := by
        rintro w ⟨⟩
        rw [hmark, head?_origin htrimmed ha]
      refine (htype.bind fun t _ => assemble_reads defaultSource _ horigin t).congr fun hs => ?_
      have hsplit : splitOrigin (passed ++ back) = (some (trim a), tail) := by
        rw [splitOrigin_eq, ← hfound.eq_breakAt hs]
        rfl
      exact (unthrottled_eq_readType _ hne hsplit).symm

include hchecked in
/-- A stream is read. -/
theorem stream_reads (defaultSource : String) {text : List Char} (htrimmed : Trimmed text)
    (hfits : Fits rounds short text) :
    Reads short (stream checked rounds defaultSource text)
      (Selector.stream defaultSource text) := by
  unfold stream Selector.stream lastOffset?
  split
  next hlast =>
    cases hbrace : breakAtLast '\x7b' text with
    | none => exact .fault _
    | some r =>
      obtain ⟨front, braced⟩ := r
      obtain ⟨htext, -⟩ := breakAtLast_eq_some hbrace
      obtain ⟨inside, rfl⟩ : ∃ inside, braced = inside ++ ['\x7d'] :=
        ⟨_, (dropLast_of_breakAtLast hbrace hlast (by decide)).symm⟩
      have hassoc : text = front ++ ['\x7b'] ++ inside ++ ['\x7d'] := by rw [htext]; simp
      have hend : less (size text) 1 = .ok (size (front ++ ['\x7b'] ++ inside)) := by
        rw [hassoc, IsAscii.size_concat (by decide), less, if_pos (Nat.le_add_left _ _),
          Nat.add_sub_cancel]
      have hstart : size (front ++ ['\x7b']) = size front + 1 := IsAscii.size_concat (by decide) _
      have hpiece := slice_append (front ++ ['\x7b']) inside ['\x7d']
      have hfront := slice_append [] front ('\x7b' :: (inside ++ ['\x7d']))
      rw [← hassoc, hstart] at hpiece
      rw [List.nil_append, ← htext] at hfront
      have hfits' : Fits rounds short (trim front) := hfits.of_le <| by
        have := size_trim_le front
        rw [hassoc]
        simp only [size_append]
        omega
      simp only [Option.map_some, hend, ok_bind, hpiece, List.dropLast_concat]
      refine (Reads.mapError _).bind fun rates _ => ?_
      rw [show slice text 0 (size front) = .ok front from hfront, ok_bind]
      exact (unthrottled_reads hchecked defaultSource (Text.trimmed_trim front) hfits').map _
  next => exact unthrottled_reads hchecked defaultSource htrimmed hfits

/-! ## Selectors -/

include hchecked in
theorem parts_append {text : List Char} (hfits : Fits rounds short text) :
    ∃ output, parts checked rounds text =
        (if output.isEmpty then .error (.fault .emptySelector) else .ok output) ∧
      (short → output = Selector.parts text) ∧
      ∀ part ∈ output, Trimmed part ∧ part <:+: text := by
  obtain ⟨output, houtput, heq, hparts⟩ := partsFrom_append hchecked [] text hfits hfits.rounds
  have houtput : partsFrom checked rounds text rounds 0 = .ok output := houtput
  refine ⟨output, ?_, heq, hparts⟩
  rw [parts, houtput, ok_bind]
  split <;> rfl

/-- What stands behind the arrow of a range. -/
def behindArrow (text : List Char) : Except SelectorFault (List Char) :=
  match trim text with
  | '>' :: target => .ok (trim target)
  | _ => .error .missingArrow

theorem target_append (front behind : List Char) : target (front ++ ']' :: behind) (size front) =
    (behindArrow behind).mapError .fault := by
  have hassoc : front ++ ']' :: behind = front ++ [']'] ++ behind := by simp
  have hslice := slice_append (front ++ [']']) behind []
  have hstart : size (front ++ [']']) = size front + 1 := IsAscii.size_concat (by decide) _
  rw [List.append_nil, hstart, ← hassoc] at hslice
  rw [target, hslice, ok_bind, behindArrow]
  generalize trim behind = text
  rcases text with _ | ⟨c, text⟩
  · rfl
  · by_cases hc : c = '>'
    · subst hc
      rfl
    · simp [hc, Except.mapError, throw, throwThe, MonadExceptOf.throw]

theorem infix_of_behindArrow {behind target : List Char} (h : behindArrow behind = .ok target) :
    Trimmed target ∧ target <:+: behind := by
  unfold behindArrow at h
  split at h
  next target' htrim =>
    cases h
    have htail : target' <:+: trim behind := by
      rw [htrim]
      exact ⟨['>'], [], by simp⟩
    exact ⟨Text.trimmed_trim _, (isInfix_trim _).trans (htail.trans (isInfix_trim _))⟩
  next => cases h

/-- A range of bounds and of what stands behind them. -/
def rangeOf (read : List Char → Except SelectorFault EventStream) (bounds : List (List Char))
    (behind : List Char) : Except SelectorFault EventStream :=
  match bounds with
  | [start, stop] => behindArrow behind >>= Sentence.readRange read start stop
  | [] => .error .emptySelector
  | _ => .error .betweenCount

theorem selectorWithin_bracket (defaultSource : String) (fuel : Nat) (rest : List Char) :
    selectorWithin defaultSource (fuel + 1) ('[' :: rest) =
      (breakAt ']' ['['] [']'] 0 rest).elim (.error .emptyBetween) fun r =>
        rangeOf (selectorWithin defaultSource fuel) (Selector.parts r.1) r.2 := by
  rw [Sentence.selectorWithin_range]
  cases breakAt ']' ['['] [']'] 0 rest with
  | none => rfl
  | some r =>
    obtain ⟨inside, behind⟩ := r
    simp only [Option.elim_some, rangeOf, behindArrow]
    generalize Selector.parts inside = bounds
    generalize trim behind = behind
    rcases bounds with _ | ⟨start, _ | ⟨stop, _ | ⟨more, others⟩⟩⟩
    · rfl
    · rfl
    · rcases behind with _ | ⟨c, target⟩
      · rfl
      · by_cases hc : c = '>'
        · subst hc
          rfl
        · simp [hc, bind, Except.bind]
    · rfl

include hchecked in
/-- A range is read when its bounds and its target are. -/
theorem range_reads {read : List Char → Except Halt EventStream}
    {read' : List Char → Except SelectorFault EventStream} {inside behind : List Char}
    (hfits : Fits rounds short inside)
    (hread : ∀ piece, Trimmed piece → piece <:+: inside ∨ piece <:+: behind →
      Reads short (read piece) (read' piece)) :
    Reads short
      (range checked rounds read ('[' :: (inside ++ ']' :: behind)) (size ('[' :: inside)))
      (rangeOf read' (Selector.parts inside) behind) := by
  have hclose : size ('[' :: inside) ≠ size ('[' :: inside ++ ']' :: behind) := by
    rw [size_append, IsAscii.size_cons (c := ']') (by decide)]
    omega
  obtain ⟨bounds, hbounds, heq, hmem⟩ := parts_append hchecked hfits
  refine Reads.congr (y := rangeOf read' bounds behind) ?_ fun hs => by rw [heq hs]
  have hinside : slice ('[' :: inside ++ ']' :: behind) 1 (size ('[' :: inside)) = .ok inside :=
    slice_append ['['] inside (']' :: behind)
  rw [range, ← List.cons_append, if_neg hclose, hinside, ok_bind, hbounds]
  rcases bounds with _ | ⟨start, _ | ⟨stop, _ | ⟨more, others⟩⟩⟩
  · exact .fault _
  · exact .fault _
  · obtain ⟨hstart, hstart'⟩ := hmem start (by simp)
    obtain ⟨hstop, hstop'⟩ := hmem stop (by simp)
    rw [if_neg (by simp), ok_bind, if_neg (by simp), target_append]
    refine (Reads.mapError _).bind fun target htarget => ?_
    obtain ⟨htrimmed, htarget'⟩ := infix_of_behindArrow (mapError_eq_ok.1 htarget)
    simp only [List.mapM_cons, List.mapM_nil, bind_assoc, pure_bind]
    refine (hread start hstart (.inl hstart')).bind fun a _ => ?_
    refine (hread stop hstop (.inl hstop')).bind fun b _ => ?_
    exact (hread target htrimmed (.inr htarget')).bind fun s _ => .ok _
  · exact .fault _

include hchecked in
/-- A selector is read, with more levels of recursion than it has bytes. -/
theorem selector_reads (defaultSource : String) {levels : Nat} : ∀ {text : List Char} {fuel : Nat},
    Trimmed text → Fits rounds short text → size text < levels → text.length < fuel →
    Reads short (selector checked rounds defaultSource levels text)
      (selectorWithin defaultSource fuel text) := by
  induction levels with
  | zero => exact fun _ _ h => absurd h (Nat.not_lt_zero _)
  | succ levels ih =>
    intro text fuel htrimmed hfits hlevels hfuel
    obtain ⟨fuel, rfl⟩ : ∃ n, fuel = n + 1 := ⟨fuel - 1, by omega⟩
    rw [selector]
    split
    next hhead =>
      obtain ⟨rest, rfl⟩ := List.head?_eq_some_iff.1 hhead
      obtain ⟨found, hfound, hsearch⟩ := search_append hchecked ']' ['['] [']'] ['['] rest hfits
        (by decide) (by decide) (by decide)
      have hopen : size ['['] = 1 := rfl
      rw [List.singleton_append, hopen] at hsearch
      rw [hsearch, ok_bind, selectorWithin_bracket]
      cases found with
      | none =>
        rw [offsetOf_none, List.singleton_append, range, if_pos rfl]
        exact (Reads.fault _).congr fun hs => by
          rw [← hfound.eq_breakAt hs]
          rfl
      | some r =>
        obtain ⟨inside, behind⟩ := r
        obtain rfl : rest = inside ++ ']' :: behind := hfound.split _ rfl
        have hsize : size ('[' :: (inside ++ ']' :: behind)) = size inside + size behind + 2 := by
          rw [IsAscii.size_cons (by decide), size_append, IsAscii.size_cons (by decide)]
          omega
        rw [List.length_cons, List.length_append, List.length_cons] at hfuel
        refine (range_reads hchecked (hfits.of_le (by omega)) fun piece htrimmed hpiece => ?_).congr
          fun hs => by
            rw [← hfound.eq_breakAt hs]
            rfl
        have hle : size piece ≤ size inside + size behind ∧
            piece.length ≤ inside.length + behind.length := by
          rcases hpiece with h | h
          all_goals
            have := size_le_of_infix h
            have := h.length_le
            omega
        exact ih htrimmed (hfits.of_le (by omega)) (by omega) (by omega)
    next hhead =>
      rw [Sentence.selectorWithin_stream hhead]
      exact stream_reads hchecked defaultSource htrimmed hfits

include hchecked in
theorem streams_reads (defaultSource : String) {text : List Char} (hfits : Fits rounds short text) :
    Reads short (streams checked rounds defaultSource text)
      (Selector.streams defaultSource text) := by
  obtain ⟨output, houtput, heq, hparts⟩ := parts_append hchecked hfits
  have hstreams : short → (if output.isEmpty then .error .emptySelector
      else output.mapM (selectorWithin defaultSource (text.length + 1))) =
        Selector.streams defaultSource text := fun hs => by
    rw [heq hs, Selector.streams]
    rfl
  refine Reads.congr ?_ hstreams
  rw [streams, houtput]
  split
  · exact .fault _
  · refine Reads.mapM fun part hpart => ?_
    obtain ⟨htrimmed, hinfix⟩ := hparts part hpart
    have hle := size_le_of_infix hinfix
    exact selector_reads hchecked defaultSource htrimmed (hfits.of_le hle)
      (Nat.lt_of_le_of_lt hle hfits.rounds) (Nat.lt_succ_of_le hinfix.length_le)

end

/-- No text halts the reader: every byte and every piece is there, and the loops and the recursion
come to an end within one round more than there are bytes. What is read from a short text is what
the reader of characters reads. -/
theorem exists_outcome (checked : Bool) (rounds : Nat) (selector defaultSource : String)
    (hrounds : selector.utf8ByteSize < rounds)
    (hchecked : checked = true → selector.utf8ByteSize < 2 ^ 31) :
    ∃ outcome : Except SelectorFault (List EventStream),
      streams checked rounds defaultSource selector.toList = outcome.mapError .fault ∧
      (selector.utf8ByteSize < 2 ^ 31 → outcome.mapError (.invalidEventSelector selector) =
        EventStream.ofSelector selector defaultSource) := by
  have hsize : size selector.toList = selector.utf8ByteSize := by
    rw [← utf8ByteSize_ofList, String.ofList_toList]
  have hfits : Fits rounds (selector.utf8ByteSize < 2 ^ 31) selector.toList :=
    ⟨hsize ▸ hrounds, fun hs => hsize ▸ hs⟩
  obtain ⟨outcome, houtcome, heq⟩ := streams_reads hchecked defaultSource hfits
  exact ⟨outcome, houtcome, fun hs => by rw [heq hs, EventStream.ofSelector]⟩

/-- A range with a source that has characters of two bytes. -/
theorem accented_read : streams true 40 "scope" "[down, größe:up] > move!".toList = .ok
    [{ EventStream.empty with
      source := some "scope"
      type := some "move"
      consume := some true
      between :=
        [{ EventStream.empty with source := some "scope", type := some "down" },
         { EventStream.empty with source := some "größe", type := some "up" }] }] := by
  obtain ⟨outcome, houtcome, hread⟩ := exists_outcome true 40 "[down, größe:up] > move!" "scope"
    (by decide) fun _ => by decide
  have hselector : EventStream.ofSelector "[down, größe:up] > move!" "scope" = .ok _ := rfl
  rw [houtcome, mapError_eq_ok.1 ((hread (by decide)).trans hselector)]
  rfl

end Offsets

end ChartCompiler.Selector
