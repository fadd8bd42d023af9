import ChartCompiler.Json.Decode
import ChartCompiler.Proofs.Json.Wellformed

/-!
# What readers yield

What is known of all that a reader of values yields from values of documents, and how it is made up
from what the readers of its parts yield.

Results:

* `Json.Gives`: a reader of values; `Json.Record.Gives`: a reader of fields.
* `Json.Record.gives_bind`: fields one after the other.
* `Json.gives_read`: a record.
-/

namespace ChartCompiler.Json

/-! ## Readers of values -/

/-- Whether all that is read from values of documents has a property. -/
def Gives {α : Type} (decode : Decoder α) (P : α → Prop) : Prop :=
  ∀ j a, j.Sound → decode j = some a → P a

section
variable {α β : Type} {first second decode : Decoder α} {P : α → Prop}

theorem gives_true : Gives decode fun _ => True := fun _ _ _ _ => trivial

theorem Gives.imp (h : Gives decode P) {Q : α → Prop} (hpq : ∀ a, P a → Q a) : Gives decode Q :=
  fun j a hj ha => hpq a (h j a hj ha)

theorem gives_asAny : Gives asAny Sound := by
  rintro j _ hj ⟨⟩
  exact hj

theorem gives_asMembers : Gives asMembers fun members => (obj members).Sound := by
  rintro j members hj h
  cases j with
  | obj =>
    cases h
    exact hj
  | _ => cases h

theorem gives_asWord : Gives asWord fun n => n < 4294967296 := by
  rintro j n - h
  cases j with
  | int k =>
    simp only [asWord] at h
    split_ifs at h with hk
    cases h
    omega
  | _ => cases h

theorem gives_choice {content : Content} {names : String → Option α}
    (h : ∀ s a, names s = some a → P a) : Gives (choice content names) P := by
  intro j a _ hread
  unfold choice at hread
  split at hread
  · exact h _ a hread
  · split_ifs at hread
    exact h _ a hread
  · cases hread

theorem gives_orElse (hfirst : Gives first P) (hsecond : Gives second P) :
    Gives (orElse first second) P := by
  intro j a hj h
  unfold orElse at h
  cases hread : first j with
  | none =>
    rw [hread] at h
    exact hsecond j a hj h
  | some b =>
    rw [hread] at h
    cases h
    exact hfirst j a hj hread

theorem gives_map {f : α → β} {Q : β → Prop} (h : Gives decode fun a => Q (f a)) :
    Gives (fun j => (decode j).map f) Q := by
  intro j b hj hb
  obtain ⟨a, ha, rfl⟩ := Option.map_eq_some_iff.1 hb
  exact h j a hj ha

/-- Each value that a successful reading of several gives comes from one of them. -/
theorem exists_of_mapM {f : β → Option α} {items : List β} {values : List α}
    (h : items.mapM f = some values) {a : α} (ha : a ∈ values) : ∃ i ∈ items, f i = some a := by
  induction items generalizing values with
  | nil =>
    cases h
    cases ha
  | cons i rest ih =>
    rw [List.mapM_cons] at h
    obtain ⟨b, hb, h⟩ := Option.bind_eq_some_iff.1 h
    obtain ⟨bs, hbs, h⟩ := Option.bind_eq_some_iff.1 h
    cases h
    rcases List.mem_cons.1 ha with rfl | ha
    · exact ⟨i, List.mem_cons_self, hb⟩
    · obtain ⟨k, hk, hread⟩ := ih hbs ha
      exact ⟨k, List.mem_cons_of_mem _ hk, hread⟩

theorem gives_listOf (h : Gives decode P) :
    Gives (listOf decode) fun items => ∀ a ∈ items, P a := by
  intro j items hj hread a ha
  cases hj with
  | arr hitems =>
    obtain ⟨i, hi, hia⟩ := exists_of_mapM hread ha
    exact h i a (hitems i hi) hia
  | _ => cases hread

theorem gives_mapOf {κ : Type} {key : String → Option κ} (h : Gives decode P) :
    Gives (mapOf key decode) fun entries => ∀ e ∈ entries, P e.2 := by
  intro j entries hj hread e he
  cases hj with
  | obj _ hmembers =>
    obtain ⟨m, hm, hme⟩ := exists_of_mapM hread he
    obtain ⟨k, -, hme⟩ := Option.bind_eq_some_iff.1 hme
    obtain ⟨a, ha, hme⟩ := Option.bind_eq_some_iff.1 hme
    cases hme
    exact h m.2 a (hmembers m hm) ha
  | _ => cases hread

theorem gives_nullable (h : Gives decode P) :
    Gives (nullable decode) fun value => ∀ a ∈ value, P a := by
  intro j value hj hread a ha
  obtain rfl : value = some a := ha
  cases j with
  | null => cases hread
  | _ =>
    obtain ⟨b, hb, heq⟩ := Option.map_eq_some_iff.1 hread
    cases heq
    exact h _ a hj hb

end

/-! ## Readers of fields -/

theorem sound_of_lookup {members : List (String × Json)} (h : ∀ m ∈ members, m.2.Sound)
    {key : String} {j : Json} (hj : members.lookup key = some j) : j.Sound := by
  induction members with
  | nil => cases hj
  | cons m rest ih =>
    rw [List.lookup_cons] at hj
    split at hj
    · cases hj
      exact h m List.mem_cons_self
    · exact ih (fun e he => h e (List.mem_cons_of_mem _ he)) hj

/-- Fields with values of documents. -/
def Fields.Sound : Fields → Prop
  | .named members => ∀ m ∈ members, m.2.Sound
  | .positional items => ∀ j ∈ items, j.Sound

namespace Record

variable {α β : Type} {P : α → Prop} {Q : β → Prop}

/-- Whether all that is read from fields with values of documents has a property. -/
def Gives (r : Record α) (P : α → Prop) : Prop :=
  ∀ fields a rest, fields.Sound → r.run fields = some (a, rest) → P a ∧ rest.Sound

theorem gives_pure {a : α} (h : P a) : Gives (pure a) P := by
  rintro fields _ _ hfields ⟨⟩
  exact ⟨h, hfields⟩

theorem gives_bind {r : Record α} {f : α → Record β} (hr : r.Gives P)
    (hf : ∀ a, P a → (f a).Gives Q) : (r >>= f).Gives Q := by
  intro fields b rest hfields h
  rw [StateT.run_bind] at h
  obtain ⟨⟨a, between⟩, hread, h⟩ := Option.bind_eq_some_iff.1 h
  obtain ⟨ha, hbetween⟩ := hr fields a between hfields hread
  exact hf a ha between b rest hbetween h

theorem gives_next (key : String) : (next key).Gives fun value => ∀ j ∈ value, j.Sound := by
  rintro (members | items) value rest hfields h
  · cases h
    exact ⟨fun j hj => sound_of_lookup hfields hj, hfields⟩
  · cases items with
    | nil =>
      cases h
      exact ⟨fun _ hj => absurd hj (Option.not_mem_none _), hfields⟩
    | cons j items =>
      cases h
      refine ⟨?_, fun i hi => hfields i (List.mem_cons_of_mem _ hi)⟩
      rintro _ ⟨⟩
      exact hfields j List.mem_cons_self

theorem gives_lift {decode : Decoder α} (h : Json.Gives decode P) {j : Json} (hj : j.Sound) :
    Gives (StateT.lift (decode j)) P := by
  intro fields a rest hfields hread
  obtain ⟨b, hb, heq⟩ := Option.bind_eq_some_iff.1 hread
  cases heq
  exact ⟨h j _ hj hb, hfields⟩

theorem gives_fail : Gives (StateT.lift (none : Option α)) P := by
  intro fields a rest _ hread
  cases hread

theorem gives_required (key : String) {decode : Decoder α} (h : Json.Gives decode P) :
    (required key decode).Gives P := by
  refine gives_bind (gives_next key) fun value hvalue => ?_
  cases value with
  | none => exact gives_fail
  | some j => exact gives_lift h (hvalue j rfl)

theorem gives_withDefault (key : String) {default : α} {decode : Decoder α} (hdefault : P default)
    (h : Json.Gives decode P) : (withDefault key default decode).Gives P := by
  refine gives_bind (gives_next key) fun value hvalue => ?_
  cases value with
  | none => exact gives_pure hdefault
  | some j => exact gives_lift h (hvalue j rfl)

theorem gives_optional (key : String) {decode : Decoder α} (h : Json.Gives decode P) :
    (optional key decode).Gives fun value => ∀ a ∈ value, P a :=
  gives_withDefault key (by simp) (gives_nullable h)

theorem gives_isPositional : isPositional.Gives fun _ => True := by
  rintro (members | items) positional rest hfields h <;> cases h <;> exact ⟨trivial, hfields⟩

theorem gives_optionalNamed (key : String) {decode : Decoder α} (h : Json.Gives decode P) :
    (optionalNamed key decode).Gives fun value => ∀ a ∈ value, P a := by
  refine gives_bind (gives_next key) fun value hvalue => ?_
  cases value with
  | none =>
    refine gives_bind gives_isPositional fun positional _ => ?_
    cases positional with
    | true => exact gives_fail
    | false => exact gives_pure (by simp)
  | some j => exact gives_lift (gives_nullable h) (hvalue j rfl)

/-- Fields of which nothing need be known. -/
theorem gives_any_optional (key : String) (decode : Decoder α) :
    (optional key decode).Gives fun _ => True :=
  gives_withDefault key trivial gives_true

end Record

/-! ## Readers of records -/

section
variable {α : Type} {r : Record α} {P : α → Prop}

theorem gives_read (h : r.Gives P) : Gives (Record.read r) P := by
  intro j a hj hread
  cases hj with
  | obj _ hmembers =>
    obtain ⟨⟨b, rest⟩, hrun, rfl⟩ := Option.map_eq_some_iff.1 hread
    exact (h (.named _) b rest hmembers hrun).1
  | @arr items hitems =>
    unfold Record.read at hread
    dsimp only at hread
    split at hread
    · rename_i b hrun
      cases hread
      exact (h (.positional items) _ _ hitems hrun).1
    · cases hread
  | _ => cases hread

theorem gives_readNamed (h : r.Gives P) : Gives (Record.readNamed r) P := by
  intro j a hj hread
  cases hj with
  | obj _ hmembers =>
    obtain ⟨⟨b, rest⟩, hrun, rfl⟩ := Option.map_eq_some_iff.1 hread
    exact (h (.named _) b rest hmembers hrun).1
  | _ => cases hread

end

end ChartCompiler.Json
