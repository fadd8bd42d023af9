import ChartCompiler.Json.Decode
import ChartCompiler.Proofs.Json.Reading

/-!
# Reading the members of records

A reader of fields by name takes each field from the members of an object and leaves them as they
are. So what a record is read as can be told field by field: a field that must be there, or one
with a default. Members that are unset are not written, and so are not found.

Results:

* `Json.Record.run_required`, `Json.Record.run_withDefault`: single fields, by name.
* `Json.member_always`, `Json.member_whenSet`: the members of a written record.
* `Json.TakesBack`: a reader takes a value back if no double in what is written for it changed.
* `Json.sound_record`: a written record is a value of documents.
-/

namespace ChartCompiler.Json

/-! ## Fields by name -/

/-- A field with a default. -/
def fieldOr {α : Type} (default : α) (value : Decoder α) : Option Json → Option α
  | some j => value j
  | none => some default

namespace Record

variable {α β : Type} (members : List (String × Json))

theorem run_required (key : String) (value : Decoder α) :
    (required key value).run (.named members) =
      ((members.lookup key).bind value).map fun a => (a, .named members) := by
  rw [required, StateT.run_bind]
  change (match members.lookup key with
    | some j => StateT.lift (value j)
    | none => StateT.lift none : Record α).run (.named members) = _
  cases members.lookup key with
  | none => rfl
  | some j => cases h : value j <;> simp [StateT.run, StateT.lift, h]

theorem run_withDefault (key : String) (default : α) (value : Decoder α) :
    (withDefault key default value).run (.named members) =
      (fieldOr default value (members.lookup key)).map fun a => (a, .named members) := by
  rw [withDefault, StateT.run_bind]
  change (match members.lookup key with
    | some j => StateT.lift (value j)
    | none => pure default : Record α).run (.named members) = _
  cases members.lookup key with
  | none => rfl
  | some j => cases h : value j <;> simp [StateT.run, StateT.lift, fieldOr, h]

theorem run_optional (key : String) (value : Decoder α) :
    (optional key value).run (.named members) =
      (fieldOr none (nullable value) (members.lookup key)).map fun a => (a, .named members) :=
  run_withDefault members key none (nullable value)

theorem run_optionalNamed (key : String) (value : Decoder α) :
    (optionalNamed key value).run (.named members) =
      (fieldOr none (nullable value) (members.lookup key)).map fun a => (a, .named members) := by
  rw [optionalNamed, StateT.run_bind]
  change (match members.lookup key with
    | some j => StateT.lift (nullable value j)
    | none => do if ← isPositional then StateT.lift none else return none :
      Record (Option α)).run (.named members) = _
  cases members.lookup key with
  | none => rfl
  | some j => cases h : nullable value j <;> simp [StateT.run, StateT.lift, fieldOr, h]

/-- The next fields are read from the same members. -/
theorem run_bind {r : Record α} {f : α → Record β} {o : Option α}
    (h : r.run (.named members) = o.map fun a => (a, .named members)) :
    (r >>= f).run (.named members) = o.bind fun a => (f a).run (.named members) := by
  rw [StateT.run_bind, h]
  cases o <;> rfl

end Record

/-! ## Written members -/

section
variable {α : Type} {key k : String} (rest : List (Option (String × Json)))

/-- The member of a record that is written under a key. -/
def member (key : String) (members : List (Option (String × Json))) : Option Json :=
  (members.filterMap id).lookup key

theorem lookup_filterMap_id (key : String) (members : List (Option (String × Json))) :
    (members.filterMap id).lookup key = member key members := rfl

@[simp] theorem member_nil (key : String) : member key [] = none := rfl

@[simp] theorem member_always (j : Json) : member key (always key j :: rest) = some j := by
  simp [member, always]

@[simp] theorem member_always_of_ne (h : key ≠ k) (j : Json) :
    member key (always k j :: rest) = member key rest := by
  simp [member, always, List.lookup_cons, beq_eq_false_iff_ne.2 h]

@[simp] theorem member_whenSet (value : Option α) (encode : α → Json) :
    member key (whenSet key value encode :: rest) = (value.map encode).or (member key rest) := by
  cases value <;> simp [member, whenSet]

@[simp] theorem member_whenSet_of_ne (h : key ≠ k) (value : Option α) (encode : α → Json) :
    member key (whenSet k value encode :: rest) = member key rest := by
  cases value <;> simp [member, whenSet, List.lookup_cons, beq_eq_false_iff_ne.2 h]

end

/-- A list that is not empty. -/
def nonempty? {α : Type} (items : List α) : Option (List α) :=
  if items.isEmpty then none else some items

theorem mem_of_mem_nonempty? {α : Type} {items l : List α} (hl : l ∈ nonempty? items) {a : α}
    (ha : a ∈ l) : a ∈ items := by
  cases items with
  | nil => cases hl
  | cons b rest =>
    obtain rfl : b :: rest = l := Option.some.inj hl
    exact ha

/-- A list that is written unless it is empty. -/
theorem ite_isEmpty_eq_whenSet {α : Type} (key : String) (items : List α) (encode : List α → Json) :
    (if items.isEmpty then none else some (key, encode items)) =
      whenSet key (nonempty? items) encode := by
  cases items <;> rfl

/-- What a member is written for is nested less deeply than the record. -/
theorem depth_whenSet_le {α : Type} (key : String) (encode : α → Json)
    {members : List (Option (String × Json))} {depth : Nat}
    (h : (record members).depth ≤ depth + 1) {value : Option α}
    (hmember : whenSet key value encode ∈ members) {a : α} (ha : a ∈ value) :
    (encode a).depth ≤ depth := by
  obtain rfl : value = some a := ha
  exact depth_obj_le.1 h (key, encode a) (List.mem_filterMap.2 ⟨_, hmember, rfl⟩)

/-! ## Members that are set aside -/

theorem lookup_dropMember {key dropped : String} (h : key ≠ dropped)
    (members : List (String × Json)) :
    (dropMember dropped members).lookup key = members.lookup key := by
  induction members with
  | nil => rfl
  | cons m rest ih =>
    obtain ⟨k, j⟩ := m
    by_cases hk : k = dropped
    · have hne : key ≠ k := by rwa [hk]
      simpa [dropMember, hk, List.lookup_cons, beq_eq_false_iff_ne.2 h] using ih
    · simp only [dropMember, List.filter_cons, bne_iff_ne, ne_eq, hk, not_false_eq_true, if_true,
        List.lookup_cons]
      rw [← dropMember, ih]

theorem lookup_dropMember_self (key : String) (members : List (String × Json)) :
    (dropMember key members).lookup key = none := by
  rw [List.lookup_eq_none_iff]
  intro m hm
  have hne : m.1 ≠ key := bne_iff_ne.1 (List.mem_filter.1 hm).2
  simpa using hne.symm

/-! ## Doubles in written members -/

section
variable (g : Binary64 → Option Binary64) {α : Type}

/-- A member with others in the place of its doubles. -/
def replaceMember (m : Option (String × Json)) : Option (String × Json) :=
  m.map fun m => (m.1, m.2.replace g)

theorem replace_record (members : List (Option (String × Json))) :
    (record members).replace g = record (members.map (replaceMember g)) := by
  rw [record, replace, replaceMembers_eq_map, List.map_filterMap, record, List.filterMap_map]
  rfl

@[simp] theorem replaceMember_always (key : String) (j : Json) :
    replaceMember g (always key j) = always key (j.replace g) := rfl

@[simp] theorem replaceMember_whenSet (key : String) (value : Option α) (encode : α → Json) :
    replaceMember g (whenSet key value encode) =
      whenSet key value fun a => (encode a).replace g := by
  cases value <;> rfl

end

/-- Whether all doubles in a value stay what they are. -/
def KeptBy (g : Binary64 → Option Binary64) (j : Json) : Prop := ∀ x ∈ j.numbers, g x = some x

section
variable {g : Binary64 → Option Binary64}

@[simp] theorem keptBy_str (s : String) : (str s).KeptBy g := by simp [KeptBy, numbers]

@[simp] theorem keptBy_bool (b : Bool) : (bool b).KeptBy g := by simp [KeptBy, numbers]

@[simp] theorem keptBy_int (n : Int) : (int n).KeptBy g := by simp [KeptBy, numbers]

@[simp] theorem keptBy_float (x : Binary64) : (float x).KeptBy g ↔ g x = some x := by
  simp [KeptBy, numbers]

@[simp] theorem keptBy_arr {items : List Json} :
    (arr items).KeptBy g ↔ ∀ j ∈ items, j.KeptBy g := by
  simp only [KeptBy, numbers, numbersItems_eq_flatMap, List.mem_flatMap]
  constructor
  · exact fun h j hj x hx => h x ⟨j, hj, hx⟩
  · rintro h x ⟨j, hj, hx⟩
    exact h j hj x hx

theorem keptBy_obj {members : List (String × Json)} :
    (obj members).KeptBy g ↔ ∀ m ∈ members, m.2.KeptBy g := by
  simp only [KeptBy, numbers, numbersMembers_eq_flatMap, List.mem_flatMap]
  constructor
  · exact fun h m hm x hx => h x ⟨m, hm, hx⟩
  · rintro h x ⟨m, hm, hx⟩
    exact h m hm x hx

@[simp] theorem replace_strings (texts : List String) :
    (strings texts).replace g = strings texts := by
  simp [strings, replace, replaceItems_eq_map]

@[simp] theorem keptBy_strings (texts : List String) : (strings texts).KeptBy g :=
  replace_eq_self_iff.1 (replace_strings texts)

/-- Whether all doubles in a member stay what they are. -/
def MemberKeptBy (g : Binary64 → Option Binary64) (m : Option (String × Json)) : Prop :=
  ∀ e ∈ m, e.2.KeptBy g

theorem keptBy_record {members : List (Option (String × Json))} :
    (record members).KeptBy g ↔ ∀ m ∈ members, MemberKeptBy g m := by
  simp only [record, keptBy_obj, List.mem_filterMap, id, MemberKeptBy]
  constructor
  · exact fun h m hm e he => h e ⟨m, hm, he⟩
  · rintro h e ⟨m, hm, he⟩
    exact h m hm e he

@[simp] theorem memberKeptBy_always {key : String} {j : Json} :
    MemberKeptBy g (always key j) ↔ j.KeptBy g := by
  simp [MemberKeptBy, always]

@[simp] theorem memberKeptBy_whenSet {α : Type} {key : String} {value : Option α}
    {encode : α → Json} :
    MemberKeptBy g (whenSet key value encode) ↔ ∀ a ∈ value, (encode a).KeptBy g := by
  cases value <;> simp [MemberKeptBy, whenSet]

end

/-! ## Reading what was written -/

/-- A reader takes a value back from what is written for it exactly if no double in it changed. -/
def TakesBack {α : Type} (g : Binary64 → Option Binary64) (decode : Decoder α) (encode : α → Json)
    (a : α) : Prop :=
  decode ((encode a).replace g) = some a ↔ (encode a).KeptBy g

section
variable {g : Binary64 → Option Binary64} {α : Type} {decode : Decoder α} {encode : α → Json}

theorem TakesBack.iff {a : α} (h : TakesBack g decode encode a) :
    decode ((encode a).replace g) = some a ↔ (encode a).KeptBy g := h

theorem takesBack_string (s : String) : TakesBack g asString str s := by
  simp [TakesBack, replace, asString]

theorem takesBack_bool (b : Bool) : TakesBack g asBool bool b := by
  simp [TakesBack, replace, asBool]

theorem takesBack_number (x : Binary64) : TakesBack g asNumber float x := by
  cases h : g x <;> simp [TakesBack, replace, asNumber, ofOption, number?, h]

theorem takesBack_word {n : Nat} (h : n < 4294967296) :
    TakesBack g asWord (fun n => int n) n := by
  have hn : (0 : Int) ≤ n ∧ (n : Int) < 4294967296 := by omega
  simp [TakesBack, replace, asWord, hn]

/-- A list is taken back if its items are, which may be under a condition. -/
theorem listOf_replace_iff {P : α → Prop} {items : List α}
    (h : ∀ a ∈ items, decode ((encode a).replace g) = some a ↔ P a ∧ (encode a).KeptBy g) :
    listOf decode ((arr (items.map encode)).replace g) = some items ↔
      (∀ a ∈ items, P a) ∧ (arr (items.map encode)).KeptBy g := by
  rw [keptBy_arr, List.forall_mem_map, ← forall₂_and, replace, replaceItems_eq_map, List.map_map,
    listOf, List.mapM_map]
  induction items with
  | nil => simp
  | cons a rest ih =>
    rw [List.mapM_cons, List.forall_mem_cons, ← ih fun b hb => h b (List.mem_cons_of_mem _ hb),
      ← h a List.mem_cons_self]
    simp only [Option.bind_eq_bind, Option.pure_def, Option.bind_eq_some_iff, Option.some.injEq,
      List.cons.injEq, Function.comp_apply]
    constructor
    · rintro ⟨_, ha, _, hrest, rfl, rfl⟩
      exact ⟨ha, hrest⟩
    · rintro ⟨ha, hrest⟩
      exact ⟨a, ha, rest, hrest, rfl, rfl⟩

theorem takesBack_list {items : List α} (h : ∀ a ∈ items, TakesBack g decode encode a) :
    TakesBack g (listOf decode) (fun items => arr (items.map encode)) items := by
  have hitems := listOf_replace_iff (P := fun _ => True) fun a ha => (h a ha).iff.trans (by simp)
  exact hitems.trans (by simp)

theorem takesBack_strings (texts : List String) : TakesBack g (listOf asString) strings texts :=
  takesBack_list fun s _ => takesBack_string s

theorem takesBack_pair {a b : α} (ha : TakesBack g decode encode a)
    (hb : TakesBack g decode encode b) :
    TakesBack g (pairOf decode) (fun e => arr [encode e.1, encode e.2]) (a, b) := by
  rw [TakesBack, keptBy_arr, List.forall_mem_cons, List.forall_mem_singleton, ← ha.iff, ← hb.iff]
  simp only [replace, replaceItems, pairOf, Option.bind_eq_bind, Option.pure_def,
    Option.bind_eq_some_iff, Option.some.injEq, Prod.mk.injEq]
  constructor
  · rintro ⟨_, ha, _, hb, rfl, rfl⟩
    exact ⟨ha, hb⟩
  · rintro ⟨ha, hb⟩
    exact ⟨a, ha, b, hb, rfl, rfl⟩

/-- Null is taken for unset, so a value that is written as null is not taken back. -/
theorem nullable_eq_some_some_iff {j : Json} {a : α} :
    nullable decode j = some (some a) ↔ j ≠ .null ∧ decode j = some a := by
  cases j <;> simp [nullable]

/-- A field that may be unset, of a kind that is never written as null. -/
theorem fieldOr_replace_iff (hnull : decode .null = none) {P : α → Prop} {value : Option α}
    (h : ∀ a ∈ value, decode ((encode a).replace g) = some a ↔ P a ∧ (encode a).KeptBy g) :
    fieldOr none (nullable decode) (value.map fun a => (encode a).replace g) = some value ↔
      (∀ a ∈ value, P a) ∧ ∀ a ∈ value, (encode a).KeptBy g := by
  cases value with
  | none => simp [fieldOr]
  | some a =>
    simp only [Option.map_some, fieldOr, nullable_eq_some_some_iff, Option.mem_def,
      Option.some.injEq, forall_eq', ← h a rfl]
    refine and_iff_right_of_imp fun hread hj => ?_
    rw [hj, hnull] at hread
    cases hread

theorem fieldOr_nullable_iff (hnull : decode .null = none) {value : Option α}
    (h : ∀ a ∈ value, TakesBack g decode encode a) :
    fieldOr none (nullable decode) (value.map fun a => (encode a).replace g) = some value ↔
      ∀ a ∈ value, (encode a).KeptBy g := by
  rw [fieldOr_replace_iff (P := fun _ => True) hnull fun a ha => (h a ha).iff.trans (by simp)]
  simp

/-- A field of any kind that may be unset. A null reads as unset. -/
theorem fieldOr_asAny_iff {value : Option Json} :
    fieldOr none (nullable asAny) (value.map fun j => j.replace g) = some value ↔
      value ≠ some .null ∧ ∀ j ∈ value, j.KeptBy g := by
  cases value with
  | none => simp [fieldOr]
  | some j =>
    simp only [Option.map_some, fieldOr, nullable_eq_some_some_iff, Option.mem_def, ne_eq,
      Option.some.injEq, forall_eq', asAny, replace_eq_self_iff, KeptBy]
    refine and_congr_left fun hkept => ?_
    rw [replace_eq_self_iff.2 hkept]

/-- A list that may be empty. -/
theorem fieldOr_listOf_iff {items : List α} (h : ∀ a ∈ items, TakesBack g decode encode a) :
    fieldOr [] (listOf decode)
        ((nonempty? items).map fun items => (arr (items.map encode)).replace g) = some items ↔
      ∀ l ∈ nonempty? items, (arr (l.map encode)).KeptBy g := by
  cases items with
  | nil => simp [nonempty?, fieldOr]
  | cons a rest =>
    simp only [nonempty?, List.isEmpty_cons, Bool.false_eq_true, if_false, Option.map_some, fieldOr,
      Option.mem_def, Option.some.injEq, forall_eq']
    exact (takesBack_list h).iff

end

/-! ## Written records are values of documents -/

/-- Whether a member is written, if at all, under a key. -/
def Keyed (m : Option (String × Json)) (key : String) : Prop := ∀ e ∈ m, Prod.fst e = key

theorem keyed_none (key : String) : Keyed none key := fun _ h => absurd h (Option.not_mem_none _)

@[simp] theorem keyed_always (key : String) (j : Json) : Keyed (always key j) key := by
  rintro _ ⟨⟩
  rfl

@[simp] theorem keyed_whenSet {α : Type} (key : String) (value : Option α) (encode : α → Json) :
    Keyed (whenSet key value encode) key := by
  cases value
  · exact keyed_none key
  · rintro _ ⟨⟩
    rfl

/-- A record whose fields have different keys. -/
theorem sublist_keys {members : List (Option (String × Json))} {keys : List String}
    (h : List.Forall₂ Keyed members keys) :
    ((members.filterMap id).map Prod.fst).Sublist keys := by
  induction h with
  | nil => exact List.Sublist.slnil
  | @cons m key members keys hm _ ih =>
    cases m with
    | none => exact ih.cons key
    | some e =>
      simp only [List.filterMap_cons, id, List.map_cons]
      rw [hm e rfl]
      exact ih.cons_cons key

/-- Whether the value of a member is one of documents. -/
def MemberSound (m : Option (String × Json)) : Prop := ∀ e ∈ m, Json.Sound (Prod.snd e)

@[simp] theorem memberSound_always {key : String} {j : Json} :
    MemberSound (always key j) ↔ j.Sound := by
  simp [MemberSound, always]

@[simp] theorem memberSound_whenSet {α : Type} {key : String} {value : Option α}
    {encode : α → Json} :
    MemberSound (whenSet key value encode) ↔ ∀ a ∈ value, (encode a).Sound := by
  cases value <;> simp [MemberSound, whenSet]

theorem sound_record {members : List (Option (String × Json))} (keys : List String)
    (hkeys : List.Forall₂ Keyed members keys) (hnodup : keys.Nodup)
    (h : ∀ m ∈ members, MemberSound m) : (record members).Sound := by
  refine .obj ((sublist_keys hkeys).nodup hnodup) fun e he => ?_
  obtain ⟨m, hm, he⟩ := List.mem_filterMap.1 he
  exact h m hm e he

theorem sound_strings (texts : List String) : (strings texts).Sound := by
  refine .arr fun j hj => ?_
  obtain ⟨s, -, rfl⟩ := List.mem_map.1 hj
  exact .str s

end ChartCompiler.Json
