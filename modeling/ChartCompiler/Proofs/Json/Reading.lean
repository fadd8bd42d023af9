import ChartCompiler.Json.Decode
import ChartCompiler.Proofs.Json.Numbers
import ChartCompiler.Proofs.Json.Strings

/-!
# Reading what was written

The text of a JSON value is read back as the value with each of its doubles read back on its own,
as long as it is not nested deeper than the reader goes. So a value is read back from its text
exactly if each of its doubles is. A double that is not finite is written, and so read, as null.

Results:

* `Json.Sound`: the values of documents, whose keys differ and whose whole numbers fit 64 bits.
* `Json.ofText?_render`: what is read from the text of a value.
* `Json.reread?_eq_some_iff`: what is read differs in doubles only.
* `Json.replace_eq_self_iff`: a value is read back if each of its doubles is.
-/

namespace ChartCompiler.Json

/-! ## Values in text -/

/-- The values of documents: the keys of an object differ, and whole numbers fit 64 bits. -/
inductive Sound : Json → Prop
  | null : Sound .null
  | bool (b : Bool) : Sound (.bool b)
  | int {n : Int} : -(pow2 63 : Int) ≤ n → n ≤ Decimal.wordMax → Sound (.int n)
  | float (x : Binary64) : Sound (.float x)
  | str (s : String) : Sound (.str s)
  | arr {items : List Json} : (∀ j ∈ items, Sound j) → Sound (.arr items)
  | obj {members : List (String × Json)} : (members.map Prod.fst).Nodup →
      (∀ m ∈ members, Sound m.2) → Sound (.obj members)

mutual

/-- What is read from the text of a value, at most `depth` levels deep. -/
def reread? : (depth : Nat) → Json → Option Json
  | _, .float x => ofText? (render (.float x))
  | 0, .arr _ => none
  | depth + 1, .arr items => (rereadItems? depth items).map .arr
  | 0, .obj _ => none
  | depth + 1, .obj members => (rereadMembers? depth members).map .obj
  | _, .null => some .null
  | _, .bool b => some (.bool b)
  | _, .int n => some (.int n)
  | _, .str s => some (.str s)

/-- What is read from the texts of an array's items. -/
def rereadItems? : (depth : Nat) → List Json → Option (List Json)
  | _, [] => some []
  | depth, j :: rest =>
    match reread? depth j with
    | none => none
    | some v => (rereadItems? depth rest).map (v :: ·)

/-- What is read from the texts of an object's members. -/
def rereadMembers? : (depth : Nat) → List (String × Json) → Option (List (String × Json))
  | _, [] => some []
  | depth, (k, j) :: rest =>
    match reread? depth j with
    | none => none
    | some v => (rereadMembers? depth rest).map ((k, v) :: ·)

end

/-! ## Values at the start of a text -/

theorem readValue?_quoted (fuel depth : Nat) (s : String) (rest : List Char) :
    readValue? (fuel + 1) depth ((Text.quote s).toList ++ rest) = some (.str s, rest) := by
  have htext : (Text.quote s).toList ++ rest =
      '"' :: (s.toList.flatMap Text.escapes ++ '"' :: rest) := by
    simp [Text.quote, Text.quoteChars]
  rw [htext, readValue?]
  have hskip : ∀ t, skipSpace ('"' :: t) = '"' :: t := fun _ => rfl
  simp only [hskip, readString?_quoted, Option.map_some, String.ofList_toList]

theorem readValue?_minus (fuel depth : Nat) (text : List Char) :
    readValue? (fuel + 1) depth ('-' :: text) = readNumber? true text := by
  rw [readValue?]
  rfl

theorem readValue?_digit (fuel depth : Nat) {c : Char} (hc : c.isDigit = true) (t : List Char) :
    readValue? (fuel + 1) depth (c :: t) = readNumber? false (c :: t) := by
  have hskip : skipSpace (c :: t) = c :: t := by
    have hspace : ∀ d, isSpace d = true → d.isDigit = false := by
      intro d hd
      simp only [isSpace, Bool.or_eq_true, beq_iff_eq] at hd
      rcases hd with ((rfl | rfl) | rfl) | rfl <;> rfl
    simp only [skipSpace, List.dropWhile_cons]
    split_ifs with h
    · exact absurd hc (by simp [hspace c h])
    · rfl
  rw [readValue?, hskip]
  split <;> rename_i heq <;> first | rfl | skip
  all_goals
    cases heq
    exact absurd hc (by decide)

variable {rest : List Char}

/-- Digits in front of a number without a sign. -/
theorem readValue?_digits (fuel depth : Nat) {digits : List Char} (hne : digits ≠ [])
    (hdigits : ∀ c ∈ digits, c.isDigit = true) (t : List Char) :
    readValue? (fuel + 1) depth (digits ++ t) = readNumber? false (digits ++ t) := by
  obtain ⟨c, tail, rfl⟩ := List.exists_cons_of_ne_nil hne
  exact readValue?_digit fuel depth (hdigits c List.mem_cons_self) (tail ++ t)

theorem toList_render_ofNat (n : Nat) :
    (render (.int (Int.ofNat n))).toList = Nat.toDigits 10 n := by
  simp [render, Int.repr]

theorem toList_render_negSucc (n : Nat) :
    (render (.int (Int.negSucc n))).toList = '-' :: Nat.toDigits 10 (n + 1) := by
  simp [render, Int.repr]

/-- The text of a finite double, up to its sign. -/
theorem exists_spelling_render (negative : Bool) (x : Magnitude) :
    ∃ s : Spelling, s.numeral.negative = negative ∧
      (render (.float (.finite negative x))).toList =
        if negative then '-' :: s.text else s.text := by
  obtain ⟨s, hnegative, htext, -⟩ := exists_spelling negative x
  refine ⟨s, hnegative, ?_⟩
  rw [htext]
  simp [render, Binary64.toJsonText?, Notation.render]

theorem readValue?_int (fuel depth : Nat) {n : Int} (hlow : -(pow2 63 : Int) ≤ n)
    (hhigh : n ≤ Decimal.wordMax) (hrest : Ends rest) :
    readValue? (fuel + 1) depth ((render (.int n)).toList ++ rest) = some (.int n, rest) := by
  cases n with
  | ofNat m =>
    have hm : m ≤ Decimal.wordMax := Int.ofNat_le.1 hhigh
    rw [toList_render_ofNat, readValue?_digits fuel depth Nat.toDigits_ne_nil fun _ =>
      Decimal.isDigit_of_mem_toDigits, readNumber?_whole false hm hrest]
    rfl
  | negSucc m =>
    have hm : m + 1 ≤ pow2 63 := by
      rw [Int.negSucc_eq] at hlow
      omega
    have hword : pow2 63 ≤ Decimal.wordMax := by decide
    rw [toList_render_negSucc, List.cons_append, readValue?_minus,
      readNumber?_whole true (Nat.le_trans hm hword) hrest, wholeNumber, if_pos rfl,
      if_neg (Nat.succ_ne_zero m), if_pos hm]
    rfl

/-- A finite double is read from its spelling, alone or not. -/
theorem exists_read_finite (negative : Bool) (x : Magnitude) :
    ∃ y : Option Binary64, ofText? (render (.float (.finite negative x))) = y.map .float ∧
      ∀ {rest : List Char} (fuel depth : Nat), Ends rest →
        readValue? (fuel + 1) depth ((render (.float (.finite negative x))).toList ++ rest) =
          y.map fun y => (.float y, rest) := by
  obtain ⟨s, hnegative, htext⟩ := exists_spelling_render negative x
  have hread : ∀ {rest : List Char} (fuel depth : Nat), Ends rest →
      readValue? (fuel + 1) depth ((render (.float (.finite negative x))).toList ++ rest) =
        s.read.map fun y => (.float y, rest) := by
    intro rest fuel depth hrest
    rw [htext, ← readNumber?_spelling s hrest, hnegative]
    cases negative with
    | true => exact readValue?_minus fuel depth (s.text ++ rest)
    | false =>
      simp only [Bool.false_eq_true, if_false, Spelling.text, Numeral.bodyWith, List.append_assoc]
      exact readValue?_digits fuel depth s.leads.ne_nil s.leads.digits _
  refine ⟨s.read, ?_, hread⟩
  have halone := hread (2 * (render (.float (.finite negative x))).toList.length + 1) maxDepth
    ends_nil
  rw [List.append_nil] at halone
  rw [ofText?]
  simp only [halone]
  cases s.read <;> rfl

/-- A double that is not finite has the text of null. -/
theorem render_of_not_finite {x : Binary64} (h : x.isFinite = false) :
    render (.float x) = render .null := by
  cases x with
  | finite => cases h
  | infinite | nan => simp [render, Binary64.toJsonText?]

/-- What is read from a double does not depend on what follows it. -/
theorem readValue?_float (fuel depth : Nat) (x : Binary64) (hrest : Ends rest) :
    readValue? (fuel + 1) depth ((render (.float x)).toList ++ rest) =
      (ofText? (render (.float x))).map fun v => (v, rest) := by
  cases x with
  | finite negative x =>
    obtain ⟨y, halone, hy⟩ := exists_read_finite negative x
    rw [halone, hy fuel depth hrest, Option.map_map]
    rfl
  | infinite | nan =>
    rw [render_of_not_finite rfl]
    rfl

/-! ## Arrays and objects -/

/-- Neither a blank nor the end of an array. -/
def Opens (text : List Char) : Prop := ∃ c ∈ text.head?, isSpace c = false ∧ c ≠ ']'

theorem opens_cons {c : Char} (h : isSpace c = false ∧ c ≠ ']') (tail : List Char) :
    Opens (c :: tail) := ⟨c, rfl, h⟩

theorem opens_digits {digits : List Char} (hne : digits ≠ [])
    (hdigits : ∀ c ∈ digits, c.isDigit = true) (tail : List Char) : Opens (digits ++ tail) := by
  obtain ⟨c, digits, rfl⟩ := List.exists_cons_of_ne_nil hne
  have hc := hdigits c List.mem_cons_self
  refine opens_cons ⟨?_, ?_⟩ _
  · by_contra h
    simp only [isSpace, Bool.not_eq_false, Bool.or_eq_true, beq_iff_eq] at h
    rcases h with ((rfl | rfl) | rfl) | rfl <;> exact absurd hc (by decide)
  · rintro rfl
    exact absurd hc (by decide)

/-- No value starts with a blank or with the end of an array. -/
theorem opens_render (j : Json) : Opens j.render.toList := by
  cases j with
  | null => exact opens_cons (by decide) _
  | bool b => cases b <;> exact opens_cons (by decide) _
  | int n =>
    cases n with
    | ofNat m =>
      rw [toList_render_ofNat, ← List.append_nil (Nat.toDigits 10 m)]
      exact opens_digits Nat.toDigits_ne_nil (fun _ => Decimal.isDigit_of_mem_toDigits) []
    | negSucc m =>
      rw [toList_render_negSucc]
      exact opens_cons (by decide) _
  | float x =>
    cases x with
    | finite negative x =>
      obtain ⟨s, -, htext⟩ := exists_spelling_render negative x
      rw [htext]
      cases negative with
      | true => exact opens_cons (c := '-') (by decide) s.text
      | false =>
        rw [if_neg Bool.false_ne_true, Spelling.text, Numeral.bodyWith, List.append_assoc]
        exact opens_digits s.leads.ne_nil s.leads.digits _
    | infinite | nan =>
      rw [render_of_not_finite rfl]
      exact opens_cons (by decide) _
  | str s =>
    have htext : (render (.str s)).toList = Text.quoteChars s.toList := by
      simp [render, Text.quote]
    rw [htext]
    exact opens_cons (by decide) _
  | arr items =>
    have htext : (render (.arr items)).toList =
        '[' :: (",".intercalate (renderItems items) ++ "]").toList := by simp [render]
    rw [htext]
    exact opens_cons (by decide) _
  | obj members =>
    have htext : (render (.obj members)).toList =
        '\x7b' :: (",".intercalate (renderMembers members) ++ "\x7d").toList := by simp [render]
    rw [htext]
    exact opens_cons (by decide) _

/-- Texts in a row, with a comma between each two. -/
theorem toList_intercalate_cons (text : String) (texts : List String) :
    (",".intercalate (text :: texts)).toList =
      text.toList ++ texts.flatMap fun t => ',' :: t.toList := by
  induction texts generalizing text with
  | nil => simp
  | cons next texts ih =>
    rw [String.intercalate_cons_cons, String.toList_append, String.toList_append, ih]
    simp

theorem Opens.append {text : List Char} (h : Opens text) (tail : List Char) :
    Opens (text ++ tail) := by
  obtain ⟨c, hc, hopens⟩ := h
  cases text with
  | nil => cases hc
  | cons d text =>
    obtain rfl : d = c := Option.some.inj hc
    exact opens_cons hopens _

theorem skipSpace_of_opens {text : List Char} (h : Opens text) : skipSpace text = text := by
  obtain ⟨c, hc, hspace, -⟩ := h
  cases text with
  | nil => cases hc
  | cons d tail =>
    obtain rfl : d = c := Option.some.inj hc
    simp [skipSpace, hspace]

/-- What is read from the text of a value, if there is fuel enough. -/
def ReadsBack (j : Json) : Prop :=
  ∀ {rest : List Char} (fuel depth : Nat), Ends rest →
    2 * (j.render.toList ++ rest).length ≤ fuel →
    readValue? (fuel + 1) depth (j.render.toList ++ rest) = (j.reread? depth).map fun v => (v, rest)

/-- The items of an array, one after the other. -/
theorem readItems?_renderItems {j : Json} {items : List Json}
    (h : ∀ i ∈ j :: items, i.ReadsBack) {fuel : Nat} (depth : Nat) (after : List Char)
    (hfuel : 2 * ((",".intercalate (renderItems (j :: items))).toList ++ ']' :: after).length ≤
      fuel) :
    readItems? (fuel + 2) depth
        ((",".intercalate (renderItems (j :: items))).toList ++ ']' :: after) =
      (rereadItems? depth (j :: items)).map fun vs => (vs, after) := by
  induction items generalizing j fuel with
  | nil =>
    rw [renderItems, renderItems, String.intercalate_singleton] at hfuel ⊢
    rw [readItems?, h j List.mem_cons_self _ depth (ends_cons (by decide) after) hfuel,
      rereadItems?, rereadItems?]
    cases j.reread? depth <;> rfl
  | cons i items ih =>
    have htext : (",".intercalate (renderItems (j :: i :: items))).toList ++ ']' :: after =
        j.render.toList ++
          ',' :: ((",".intercalate (renderItems (i :: items))).toList ++ ']' :: after) := by
      simp [renderItems, String.intercalate_cons_cons]
    rw [htext] at hfuel ⊢
    have hlength := hfuel
    rw [List.length_append, List.length_cons] at hlength
    obtain ⟨fuel, rfl⟩ := Nat.exists_eq_add_of_le' (by omega : 1 ≤ fuel)
    have hrest := ih (fun k hk => h k (List.mem_cons_of_mem _ hk)) (by omega : _ ≤ fuel)
    rw [readItems?, h j List.mem_cons_self _ depth (ends_cons (by decide) _) hfuel,
      rereadItems?.eq_2 depth j]
    cases j.reread? depth with
    | none => rfl
    | some v =>
      have hcomma : skipSpace (',' :: ((",".intercalate (renderItems (i :: items))).toList ++
          ']' :: after)) = _ := skipSpace_of_opens (opens_cons (by decide) _)
      simp only [Option.map_some, hcomma, hrest, Option.map_map]
      rfl

/-- A member whose key is new goes to the end. -/
theorem setMember_of_nodup {m : String × Json} {before members : List (String × Json)}
    (h : ((before ++ m :: members).map Prod.fst).Nodup) (value : Json) :
    setMember m.1 value before = before ++ [(m.1, value)] := by
  induction before with
  | nil => rfl
  | cons b before ih =>
    rw [List.cons_append, List.map_cons, List.nodup_cons] at h
    have hne : b.1 ≠ m.1 := fun he => h.1 (by simp [he])
    rw [setMember, if_neg hne, ih h.2]
    rfl

/-- The text of one member. -/
def renderMember (m : String × Json) : String := Text.quote m.1 ++ ":" ++ m.2.render

/-- One member, and what happens behind it. -/
theorem readMembers?_renderMember {m : String × Json} (h : m.2.ReadsBack) {fuel : Nat}
    (depth : Nat) (before : List (String × Json)) (hrest : Ends rest)
    (hfuel : 2 * ((renderMember m).toList ++ rest).length ≤ fuel) :
    readMembers? (fuel + 2) depth before ((renderMember m).toList ++ rest) =
      (m.2.reread? depth).bind fun v =>
        match skipSpace rest with
        | '\x7d' :: after => some (setMember m.1 v before, after)
        | ',' :: rest => readMembers? (fuel + 1) depth (setMember m.1 v before) rest
        | _ => none := by
  have htext : (renderMember m).toList ++ rest = '"' :: (m.1.toList.flatMap Text.escapes ++
      '"' :: ':' :: (m.2.render.toList ++ rest)) := by
    simp [renderMember, Text.quote, Text.quoteChars]
  rw [htext] at hfuel ⊢
  simp only [List.length_append, List.length_cons] at hfuel
  have hread := h _ depth hrest (by rw [List.length_append]; omega : _ ≤ fuel)
  have hquote : ∀ t, skipSpace ('"' :: t) = '"' :: t := fun _ => rfl
  have hcolon : ∀ t, skipSpace (':' :: t) = ':' :: t := fun _ => rfl
  rw [readMembers?]
  simp only [hquote, hcolon, readString?_quoted, hread, String.ofList_toList]
  cases m.2.reread? depth <;> rfl

/-- The members of an object, one after the other, behind those that were read before. -/
theorem readMembers?_renderMembers {m : String × Json} {members : List (String × Json)}
    (h : ∀ i ∈ m :: members, i.2.ReadsBack) (before : List (String × Json))
    (hkeys : ((before ++ m :: members).map Prod.fst).Nodup) {fuel : Nat} (depth : Nat)
    (after : List Char)
    (hfuel : 2 * ((",".intercalate (renderMembers (m :: members))).toList ++
      '\x7d' :: after).length ≤ fuel) :
    readMembers? (fuel + 2) depth before
        ((",".intercalate (renderMembers (m :: members))).toList ++ '\x7d' :: after) =
      (rereadMembers? depth (m :: members)).map fun vs => (before ++ vs, after) := by
  induction members generalizing m before fuel with
  | nil =>
    have htext : (",".intercalate (renderMembers [m])).toList = (renderMember m).toList := by
      simp [renderMembers, renderMember]
    rw [htext] at hfuel ⊢
    rw [readMembers?_renderMember (h m List.mem_cons_self) depth before
      (ends_cons (by decide) after) hfuel, rereadMembers?, rereadMembers?]
    cases m.2.reread? depth with
    | none => rfl
    | some v =>
      simp only [Option.bind_some, setMember_of_nodup hkeys]
      rfl
  | cons next members ih =>
    have htext :
        (",".intercalate (renderMembers (m :: next :: members))).toList ++ '\x7d' :: after =
          (renderMember m).toList ++ ',' ::
            ((",".intercalate (renderMembers (next :: members))).toList ++ '\x7d' :: after) := by
      simp [renderMembers, renderMember, String.intercalate_cons_cons]
    rw [htext] at hfuel ⊢
    have hlength := hfuel
    rw [List.length_append, List.length_cons] at hlength
    obtain ⟨fuel, rfl⟩ := Nat.exists_eq_add_of_le' (by omega : 1 ≤ fuel)
    rw [readMembers?_renderMember (h m List.mem_cons_self) depth before
      (ends_cons (by decide) _) hfuel, rereadMembers?.eq_2 depth m.1 m.2]
    cases m.2.reread? depth with
    | none => rfl
    | some v =>
      have hkeys' : ((before ++ [(m.1, v)] ++ next :: members).map Prod.fst).Nodup := by
        simpa using hkeys
      have hrest := ih (fun k hk => h k (List.mem_cons_of_mem _ hk)) _ hkeys' (by omega : _ ≤ fuel)
      have hcomma : skipSpace (',' :: ((",".intercalate (renderMembers (next :: members))).toList ++
          '\x7d' :: after)) = _ := skipSpace_of_opens (opens_cons (by decide) _)
      simp only [Option.bind_some, hcomma, setMember_of_nodup hkeys, hrest, Option.map_map]
      congr 1
      funext vs
      simp

theorem readValue?_brackets (fuel depth : Nat) {text : List Char} (h : Opens text) :
    readValue? (fuel + 1) (depth + 1) ('[' :: text) =
      (readItems? fuel depth text).map fun r => (.arr r.1, r.2) := by
  have hopen : ∀ t, skipSpace ('[' :: t) = '[' :: t := fun _ => rfl
  rw [readValue?, hopen]
  simp only [skipSpace_of_opens h]
  split
  · obtain ⟨c, hc, -, hne⟩ := h
    exact absurd (Option.some.inj hc).symm hne
  · rfl

theorem readValue?_braces (fuel depth : Nat) (text : List Char) :
    readValue? (fuel + 1) (depth + 1) ('\x7b' :: '"' :: text) =
      (readMembers? fuel depth [] ('"' :: text)).map fun r => (.obj r.1, r.2) := by
  have hopen : ∀ t, skipSpace ('\x7b' :: t) = '\x7b' :: t := fun _ => rfl
  have hquote : ∀ t, skipSpace ('"' :: t) = '"' :: t := fun _ => rfl
  rw [readValue?, hopen]
  simp only [hquote]
  rfl

theorem ReadsBack.arr {items : List Json} (h : ∀ j ∈ items, j.ReadsBack) :
    (arr items).ReadsBack := by
  intro rest fuel depth _ hfuel
  have htext : (render (.arr items)).toList ++ rest =
      '[' :: ((",".intercalate (renderItems items)).toList ++ ']' :: rest) := by
    simp [render]
  rw [htext] at hfuel ⊢
  rw [List.length_cons] at hfuel
  cases depth with
  | zero => rfl
  | succ depth =>
    cases items with
    | nil => rfl
    | cons j items =>
      obtain ⟨fuel, rfl⟩ := Nat.exists_eq_add_of_le' (by omega : 2 ≤ fuel)
      have hopens :
          Opens ((",".intercalate (renderItems (j :: items))).toList ++ ']' :: rest) := by
        rw [renderItems, toList_intercalate_cons]
        exact ((opens_render j).append _).append _
      rw [readValue?_brackets _ _ hopens, readItems?_renderItems h depth rest (by omega),
        reread?, Option.map_map, Option.map_map]
      rfl

theorem ReadsBack.obj {members : List (String × Json)} (hkeys : (members.map Prod.fst).Nodup)
    (h : ∀ m ∈ members, m.2.ReadsBack) : (obj members).ReadsBack := by
  intro rest fuel depth _ hfuel
  have htext : (render (.obj members)).toList ++ rest =
      '\x7b' :: ((",".intercalate (renderMembers members)).toList ++ '\x7d' :: rest) := by
    simp [render]
  rw [htext] at hfuel ⊢
  rw [List.length_cons] at hfuel
  cases depth with
  | zero => rfl
  | succ depth =>
    cases members with
    | nil => rfl
    | cons m members =>
      obtain ⟨fuel, rfl⟩ := Nat.exists_eq_add_of_le' (by omega : 2 ≤ fuel)
      have hread := readMembers?_renderMembers h [] hkeys depth rest (by omega : _ ≤ fuel)
      obtain ⟨t, ht⟩ : ∃ t, (",".intercalate (renderMembers (m :: members))).toList ++
          '\x7d' :: rest = '"' :: t := by
        rw [renderMembers, toList_intercalate_cons]
        simp [Text.quote, Text.quoteChars]
      rw [ht] at hread ⊢
      rw [readValue?_braces, hread, reread?, Option.map_map, Option.map_map]
      rfl

/-- What is read from the text of a value, whatever stands behind it. -/
theorem Sound.readsBack {j : Json} (h : j.Sound) : j.ReadsBack := by
  induction h with
  | null => exact fun _ _ _ _ => rfl
  | bool b => cases b <;> exact fun _ _ _ _ => rfl
  | int hlow hhigh =>
    intro rest fuel depth hrest _
    rw [readValue?_int fuel depth hlow hhigh hrest, reread?]
    rfl
  | float x =>
    intro rest fuel depth hrest _
    rw [readValue?_float fuel depth x hrest, reread?]
  | str s =>
    intro rest fuel depth _ _
    rw [render, readValue?_quoted fuel depth s rest, reread?]
    rfl
  | arr _ ih => exact ReadsBack.arr ih
  | obj hkeys _ ih => exact ReadsBack.obj hkeys ih

/-- What is read from the text of a value. -/
theorem ofText?_render {j : Json} (h : j.Sound) : ofText? j.render = j.reread? maxDepth := by
  have hread := h.readsBack (2 * j.render.toList.length + 1) maxDepth ends_nil
    (by rw [List.append_nil]; omega)
  rw [List.append_nil] at hread
  rw [ofText?]
  simp only [hread]
  cases j.reread? maxDepth <;> rfl

/-! ## Doubles in values -/

/-- What holds of a value's items, or members, holds of the value. -/
@[elab_as_elim]
theorem induction {P : Json → Prop} (null : P .null) (bool : ∀ b, P (.bool b))
    (int : ∀ n, P (.int n)) (float : ∀ x, P (.float x)) (str : ∀ s, P (.str s))
    (arr : ∀ items : List Json, (∀ j ∈ items, P j) → P (.arr items))
    (obj : ∀ members : List (String × Json), (∀ m ∈ members, P m.2) → P (.obj members))
    (j : Json) : P j :=
  match j with
  | .null => null
  | .bool b => bool b
  | .int n => int n
  | .float x => float x
  | .str s => str s
  | .arr items => arr items fun j _ => induction null bool int float str arr obj j
  | .obj members => obj members fun m _ => induction null bool int float str arr obj m.2
termination_by sizeOf j
decreasing_by
  · have := List.sizeOf_lt_of_mem ‹_›
    simp
    omega
  · have := List.sizeOf_lt_of_mem ‹_›
    obtain ⟨k, v⟩ := m
    simp at this ⊢
    omega

mutual

/-- The doubles in a value. -/
def numbers : Json → List Binary64
  | .float x => [x]
  | .arr items => numbersItems items
  | .obj members => numbersMembers members
  | _ => []

/-- The doubles in several values. -/
def numbersItems : List Json → List Binary64
  | [] => []
  | j :: rest => numbers j ++ numbersItems rest

/-- The doubles in the members of an object. -/
def numbersMembers : List (String × Json) → List Binary64
  | [] => []
  | (_, j) :: rest => numbers j ++ numbersMembers rest

end

mutual

/-- A value with another double, or null, in the place of each double. -/
def replace (g : Binary64 → Option Binary64) : Json → Json
  | .float x => ofOption (g x) .float
  | .arr items => .arr (replaceItems g items)
  | .obj members => .obj (replaceMembers g members)
  | other => other

/-- Several values with others in the place of their doubles. -/
def replaceItems (g : Binary64 → Option Binary64) : List Json → List Json
  | [] => []
  | j :: rest => replace g j :: replaceItems g rest

/-- Members with others in the place of their doubles. -/
def replaceMembers (g : Binary64 → Option Binary64) : List (String × Json) → List (String × Json)
  | [] => []
  | (k, j) :: rest => (k, replace g j) :: replaceMembers g rest

end

theorem numbersItems_eq_flatMap (items : List Json) :
    numbersItems items = items.flatMap numbers := by
  induction items with
  | nil => rfl
  | cons j rest ih => simp [numbersItems, ih]

theorem numbersMembers_eq_flatMap (members : List (String × Json)) :
    numbersMembers members = members.flatMap fun m => numbers m.2 := by
  induction members with
  | nil => rfl
  | cons m rest ih => simp [numbersMembers, ih]

theorem replaceItems_eq_map (g : Binary64 → Option Binary64) (items : List Json) :
    replaceItems g items = items.map (replace g) := by
  induction items with
  | nil => rfl
  | cons j rest ih => simp [replaceItems, ih]

theorem replaceMembers_eq_map (g : Binary64 → Option Binary64) (members : List (String × Json)) :
    replaceMembers g members = members.map fun m => (m.1, replace g m.2) := by
  induction members with
  | nil => rfl
  | cons m rest ih => simp [replaceMembers, ih]

theorem map_eq_self_iff {α : Type} {f : α → α} {items : List α} :
    items.map f = items ↔ ∀ a ∈ items, f a = a := by
  simpa using List.map_inj_left (f := f) (g := id) (l := items)

/-- A value stays what it is exactly if each of its doubles does. -/
theorem replace_eq_self_iff {g : Binary64 → Option Binary64} {j : Json} :
    j.replace g = j ↔ ∀ x ∈ j.numbers, g x = some x := by
  induction j using induction with
  | null | bool | int | str => simp [replace, numbers]
  | float x => cases h : g x <;> simp [replace, numbers, ofOption, h]
  | arr items ih =>
    rw [replace, numbers, replaceItems_eq_map, numbersItems_eq_flatMap, arr.injEq, map_eq_self_iff]
    simp only [List.mem_flatMap]
    constructor
    · rintro h x ⟨j, hj, hx⟩
      exact (ih j hj).1 (h j hj) x hx
    · intro h j hj
      exact (ih j hj).2 fun x hx => h x ⟨j, hj, hx⟩
  | obj members ih =>
    rw [replace, numbers, replaceMembers_eq_map, numbersMembers_eq_flatMap, obj.injEq,
      map_eq_self_iff]
    simp only [List.mem_flatMap, Prod.ext_iff, true_and]
    constructor
    · rintro h x ⟨m, hm, hx⟩
      exact (ih m hm).1 (h m hm) x hx
    · intro h m hm
      exact (ih m hm).2 fun x hx => h x ⟨m, hm, hx⟩

/-- What is read from the text of a double. -/
def reread (x : Binary64) : Option Binary64 := (ofText? (render (.float x))).bind number?

/-- A double that is read back from its text. -/
def Kept (x : Binary64) : Prop := ofText? (render (.float x)) = some (.float x)

/-- Whatever is read from the text of a double is a double or null. -/
theorem eq_ofOption_reread {x : Binary64} {v : Json} (h : ofText? (render (.float x)) = some v) :
    v = ofOption (reread x) .float := by
  rw [reread, h]
  cases x with
  | finite negative x =>
    obtain ⟨y, hy, -⟩ := exists_read_finite negative x
    obtain ⟨y, -, rfl⟩ := Option.map_eq_some_iff.1 (hy ▸ h)
    rfl
  | infinite | nan =>
    rw [render_of_not_finite rfl] at h
    obtain rfl : Json.null = v := Option.some.inj h
    rfl

theorem kept_iff {x : Binary64} : Kept x ↔ reread x = some x := by
  constructor
  · intro h
    rw [reread, h]
    rfl
  · intro h
    obtain ⟨v, hv, -⟩ := Option.bind_eq_some_iff.1 h
    rw [Kept, hv, eq_ofOption_reread hv, h]
    rfl

theorem depth_arr_le {items : List Json} {depth : Nat} :
    (arr items).depth ≤ depth + 1 ↔ ∀ j ∈ items, j.depth ≤ depth := by
  rw [Json.depth, Nat.add_le_add_iff_right]
  induction items with
  | nil => simp [depthItems]
  | cons j rest ih => simp [depthItems, ih]

theorem depth_obj_le {members : List (String × Json)} {depth : Nat} :
    (obj members).depth ≤ depth + 1 ↔ ∀ m ∈ members, m.2.depth ≤ depth := by
  rw [Json.depth, Nat.add_le_add_iff_right]
  induction members with
  | nil => simp [depthMembers]
  | cons m rest ih => simp [depthMembers, ih]

/-- A value is nested as deeply whatever stands in the place of its doubles. -/
theorem depth_replace_le {g : Binary64 → Option Binary64} {j : Json} {depth : Nat} :
    (j.replace g).depth ≤ depth ↔ j.depth ≤ depth := by
  induction j using induction generalizing depth with
  | null | bool | int | str => rfl
  | float x => cases h : g x <;> simp [replace, ofOption, h, Json.depth]
  | arr items ih =>
    cases depth with
    | zero => simp [replace, Json.depth]
    | succ depth =>
      rw [replace, replaceItems_eq_map, depth_arr_le, depth_arr_le, List.forall_mem_map]
      exact forall₂_congr fun j hj => ih j hj
  | obj members ih =>
    cases depth with
    | zero => simp [replace, Json.depth]
    | succ depth =>
      rw [replace, replaceMembers_eq_map, depth_obj_le, depth_obj_le, List.forall_mem_map]
      exact forall₂_congr fun m hm => ih m hm

section
variable {P : Json → Prop} {f : Json → Json} {depth : Nat}

theorem rereadItems?_eq_some_iff {items vs : List Json}
    (h : ∀ j ∈ items, ∀ v, j.reread? depth = some v ↔ P j ∧ v = f j) :
    rereadItems? depth items = some vs ↔ (∀ j ∈ items, P j) ∧ vs = items.map f := by
  induction items generalizing vs with
  | nil => simp [rereadItems?, eq_comm]
  | cons j rest ih =>
    have hj := h j List.mem_cons_self
    have hrest : ∀ vs, rereadItems? depth rest = some vs ↔ (∀ j ∈ rest, P j) ∧ vs = rest.map f :=
      fun _ => ih fun i hi => h i (List.mem_cons_of_mem _ hi)
    rw [rereadItems?, List.forall_mem_cons, List.map_cons]
    cases hread : j.reread? depth with
    | none =>
      have hnot : ¬P j := fun hp => by simpa [hread] using (hj (f j)).2 ⟨hp, rfl⟩
      simp [hnot]
    | some v =>
      obtain ⟨hp, rfl⟩ := (hj v).1 hread
      simp [hrest, hp, eq_comm]

theorem rereadMembers?_eq_some_iff {members vs : List (String × Json)}
    (h : ∀ m ∈ members, ∀ v, m.2.reread? depth = some v ↔ P m.2 ∧ v = f m.2) :
    rereadMembers? depth members = some vs ↔
      (∀ m ∈ members, P m.2) ∧ vs = members.map fun m => (m.1, f m.2) := by
  induction members generalizing vs with
  | nil => simp [rereadMembers?, eq_comm]
  | cons m rest ih =>
    have hm := h m List.mem_cons_self
    have hrest : ∀ vs, rereadMembers? depth rest = some vs ↔
        (∀ m ∈ rest, P m.2) ∧ vs = rest.map fun m => (m.1, f m.2) :=
      fun _ => ih fun i hi => h i (List.mem_cons_of_mem _ hi)
    rw [rereadMembers?.eq_2, List.forall_mem_cons, List.map_cons]
    cases hread : m.2.reread? depth with
    | none =>
      have hnot : ¬P m.2 := fun hp => by simpa [hread] using (hm (f m.2)).2 ⟨hp, rfl⟩
      simp [hnot]
    | some v =>
      obtain ⟨hp, rfl⟩ := (hm v).1 hread
      simp [hrest, hp, eq_comm]

end

/-- Whether anything is read from the text of a value: it is not nested too deep, and something is
read from the text of every double in it. -/
@[mk_iff]
structure Readable (depth : Nat) (j : Json) : Prop where
  depth_le : j.depth ≤ depth
  numbers : ∀ x ∈ j.numbers, (ofText? (render (.float x))).isSome = true

theorem readable_arr {items : List Json} {depth : Nat} :
    (arr items).Readable (depth + 1) ↔ ∀ j ∈ items, j.Readable depth := by
  simp only [readable_iff, depth_arr_le, numbers, numbersItems_eq_flatMap, List.mem_flatMap]
  constructor
  · exact fun h j hj => ⟨h.1 j hj, fun x hx => h.2 x ⟨j, hj, hx⟩⟩
  · intro h
    refine ⟨fun j hj => (h j hj).1, ?_⟩
    rintro x ⟨j, hj, hx⟩
    exact (h j hj).2 x hx

theorem readable_obj {members : List (String × Json)} {depth : Nat} :
    (obj members).Readable (depth + 1) ↔ ∀ m ∈ members, m.2.Readable depth := by
  simp only [readable_iff, depth_obj_le, numbers, numbersMembers_eq_flatMap, List.mem_flatMap]
  constructor
  · exact fun h m hm => ⟨h.1 m hm, fun x hx => h.2 x ⟨m, hm, hx⟩⟩
  · intro h
    refine ⟨fun m hm => (h m hm).1, ?_⟩
    rintro x ⟨m, hm, hx⟩
    exact (h m hm).2 x hx

/-- What is read from the text of a value differs in doubles only. -/
theorem reread?_eq_some_iff {depth : Nat} {j v : Json} :
    j.reread? depth = some v ↔ j.Readable depth ∧ v = j.replace reread := by
  induction j using induction generalizing depth v with
  | null | bool | int | str =>
    rw [reread?.eq_def]
    simp only [readable_iff, Json.depth, numbers, replace, Option.some.injEq, Nat.zero_le,
      List.not_mem_nil, false_imp_iff, implies_true, true_and]
    exact eq_comm
  | float x =>
    have hread : reread? depth (.float x) = ofText? (render (.float x)) := by
      cases depth <;> rfl
    rw [hread]
    cases htext : ofText? (render (.float x)) with
    | none => simp [readable_iff, numbers, htext]
    | some w =>
      simp only [readable_iff, Json.depth, numbers, replace, ← eq_ofOption_reread htext, htext,
        Option.some.injEq, Nat.zero_le, List.forall_mem_singleton, Option.isSome_some, true_and]
      exact eq_comm
  | arr items ih =>
    cases depth with
    | zero => simp [readable_iff, reread?, Json.depth]
    | succ depth =>
      have hitems : ∀ vs, rereadItems? depth items = some vs ↔
          (∀ j ∈ items, j.Readable depth) ∧ vs = items.map (replace reread) :=
        fun vs => rereadItems?_eq_some_iff fun j hj v => ih j hj
      rw [reread?, Option.map_eq_some_iff, readable_arr, replace, replaceItems_eq_map]
      simp only [hitems, and_assoc, exists_and_left, exists_eq_left]
      exact and_congr_right fun _ => eq_comm
  | obj members ih =>
    cases depth with
    | zero => simp [readable_iff, reread?, Json.depth]
    | succ depth =>
      have hmembers : ∀ vs, rereadMembers? depth members = some vs ↔
          (∀ m ∈ members, m.2.Readable depth) ∧
            vs = members.map fun m => (m.1, m.2.replace reread) :=
        fun vs => rereadMembers?_eq_some_iff fun m hm v => ih m hm
      rw [reread?, Option.map_eq_some_iff, readable_obj, replace, replaceMembers_eq_map]
      simp only [hmembers, and_assoc, exists_and_left, exists_eq_left]
      exact and_congr_right fun _ => eq_comm

/-- A reader that takes back what stands for a value, under a condition, as long as no double in it
is changed takes it back from text as long as the doubles are kept. -/
theorem ofText?_bind_eq_some_iff {α : Type} {decode : Decoder α} {a : α} {j : Json} {P : Prop}
    (hj : j.Sound) (h : ∀ g, decode (j.replace g) = some a ↔ P ∧ ∀ x ∈ j.numbers, g x = some x) :
    (ofText? j.render).bind decode = some a ↔
      P ∧ j.depth ≤ maxDepth ∧ ∀ x ∈ j.numbers, Kept x := by
  simp only [ofText?_render hj, Option.bind_eq_some_iff, reread?_eq_some_iff, kept_iff]
  constructor
  · rintro ⟨_, ⟨hreadable, rfl⟩, hdecode⟩
    exact ⟨((h reread).1 hdecode).1, hreadable.depth_le, ((h reread).1 hdecode).2⟩
  · rintro ⟨hp, hdepth, hkept⟩
    refine ⟨_, ⟨⟨hdepth, fun x hx => ?_⟩, rfl⟩, (h reread).2 ⟨hp, hkept⟩⟩
    rw [kept_iff.2 (hkept x hx)]
    rfl

end ChartCompiler.Json
