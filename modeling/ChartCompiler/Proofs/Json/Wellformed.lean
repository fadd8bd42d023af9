import ChartCompiler.Proofs.Json.Reading

/-!
# What is read from text is well formed

Whatever is read from JSON text is a value of a document: whole numbers fit 64 bits, as longer ones
are read as doubles, and a key that is repeated takes the place of its first member.

Results:

* `Json.nodup_setMember`: keys stay different.
* `Json.sound_of_readNumber?`: numbers.
* `Json.sound_of_ofText?`: whole texts.
-/

namespace ChartCompiler.Json

/-! ## Members -/

theorem keys_setMember (key : String) (value : Json) (members : List (String × Json)) :
    (setMember key value members).map Prod.fst =
      if key ∈ members.map Prod.fst then members.map Prod.fst
      else members.map Prod.fst ++ [key] := by
  induction members with
  | nil => rfl
  | cons m rest ih =>
    obtain ⟨k, v⟩ := m
    by_cases hk : k = key
    · simp [setMember, hk]
    · rw [setMember, if_neg hk, List.map_cons, ih]
      by_cases hmem : key ∈ rest.map Prod.fst
      · rw [if_pos hmem, List.map_cons, if_pos (List.mem_cons_of_mem _ hmem)]
      · have hnot : key ∉ k :: rest.map Prod.fst := by
          rw [List.mem_cons, not_or]
          exact ⟨Ne.symm hk, hmem⟩
        rw [if_neg hmem, List.map_cons, if_neg hnot, List.cons_append]

/-- Keys stay different. -/
theorem nodup_setMember {members : List (String × Json)} (h : (members.map Prod.fst).Nodup)
    (key : String) (value : Json) : ((setMember key value members).map Prod.fst).Nodup := by
  rw [keys_setMember]
  split_ifs with hmem
  · exact h
  · rw [← List.concat_eq_append]
    exact (List.nodup_concat _ _).2 ⟨hmem, h⟩

theorem mem_setMember {key : String} {value : Json} {members : List (String × Json)}
    {m : String × Json} (h : m ∈ setMember key value members) : m.2 = value ∨ m ∈ members := by
  induction members with
  | nil => exact .inl (by rw [List.mem_singleton.1 h])
  | cons a rest ih =>
    obtain ⟨k, v⟩ := a
    rw [setMember] at h
    split_ifs at h with hk
    · rcases List.mem_cons.1 h with rfl | h
      · exact .inl rfl
      · exact .inr (List.mem_cons_of_mem _ h)
    · rcases List.mem_cons.1 h with rfl | h
      · exact .inr List.mem_cons_self
      · exact (ih h).imp_right (List.mem_cons_of_mem _)

theorem sound_emptyObj : (obj []).Sound := .obj List.nodup_nil (List.forall_mem_nil _)

theorem sound_emptyArr : (arr []).Sound := .arr (List.forall_mem_nil _)

theorem sound_setMember (key : String) {value : Json} {members : List (String × Json)}
    (h : (obj members).Sound) (hvalue : value.Sound) :
    (obj (setMember key value members)).Sound := by
  cases h with
  | obj hkeys hmembers =>
    refine .obj (nodup_setMember hkeys key value) fun m hm => ?_
    rcases mem_setMember hm with he | hm
    · rw [he]
      exact hvalue
    · exact hmembers m hm

/-! ## Numbers -/

/-- The digits that are kept make a number within 64 bits. -/
theorem absorb_le {start : Nat} (h : start ≤ Decimal.wordMax) (taken : Nat) (digits : List Char) :
    (absorb start taken digits).1 ≤ Decimal.wordMax := by
  induction digits generalizing start taken with
  | nil => exact h
  | cons d rest ih =>
    rw [absorb]
    split_ifs with hnext
    · exact ih hnext (taken + 1)
    · exact h

theorem sound_wholeNumber (negative : Bool) {n : Nat} (h : n ≤ Decimal.wordMax) :
    (wholeNumber negative n).Sound := by
  unfold wholeNumber
  split_ifs with hneg hzero hlow
  · exact .float _
  · exact .int (by omega) (by omega)
  · exact .float _
  · exact .int (by omega) (by omega)

theorem sound_of_map_float {x : Option Binary64} {rest after : List Char} {j : Json}
    (h : x.map (fun x => (float x, after)) = some (j, rest)) : j.Sound := by
  obtain ⟨x, -, heq⟩ := Option.map_eq_some_iff.1 h
  cases heq
  exact .float x

theorem sound_of_readNumber? {negative : Bool} {text rest : List Char} {j : Json}
    (h : readNumber? negative text = some (j, rest)) : j.Sound := by
  have hle := absorb_le (Nat.zero_le _) 0 (Decimal.takeDigits text).1
  unfold readNumber? at h
  simp only at h
  split at h
  · cases h
  split at h
  · split_ifs at h
    split at h
    · cases h
    · exact sound_of_map_float h
  · split at h
    · cases h
    · split at h
      · cases h
        exact sound_wholeNumber negative hle
      · split at h
        · cases h
        · exact sound_of_map_float h
    · split at h
      · cases h
      · exact sound_of_map_float h

/-! ## Values -/

theorem sound_of_readWord? {word text rest : List Char} {value j : Json} (hvalue : value.Sound)
    (h : readWord? word value text = some (j, rest)) : j.Sound := by
  unfold readWord? at h
  split_ifs at h
  cases h
  exact hvalue

/-- Whatever is read with some fuel is a value of a document: a value, the items of an array, or the
members of an object behind others. -/
structure ReadsSound (fuel : Nat) : Prop where
  value {depth : Nat} {text : List Char} {j : Json} {rest : List Char} :
    readValue? fuel depth text = some (j, rest) → j.Sound
  items {depth : Nat} {text : List Char} {items : List Json} {rest : List Char} :
    readItems? fuel depth text = some (items, rest) → ∀ j ∈ items, Sound j
  members {depth : Nat} {before : List (String × Json)} {text : List Char}
    {members : List (String × Json)} {rest : List Char} : (obj before).Sound →
    readMembers? fuel depth before text = some (members, rest) → (obj members).Sound

namespace ReadsSound

variable {fuel depth : Nat} {text rest : List Char}

theorem readValue? (ih : ReadsSound fuel) {j : Json}
    (h : readValue? (fuel + 1) depth text = some (j, rest)) : j.Sound := by
  rw [Json.readValue?] at h
  split at h
  · split at h
    · cases h
    · split at h
      · cases h
        exact sound_emptyObj
      · obtain ⟨⟨members, after⟩, hread, heq⟩ := Option.map_eq_some_iff.1 h
        cases heq
        exact ih.members sound_emptyObj hread
  · split at h
    · cases h
    · split at h
      · cases h
        exact sound_emptyArr
      · obtain ⟨⟨items, after⟩, hread, heq⟩ := Option.map_eq_some_iff.1 h
        cases heq
        exact .arr (ih.items hread)
  · obtain ⟨r, -, heq⟩ := Option.map_eq_some_iff.1 h
    cases heq
    exact .str _
  · exact sound_of_readWord? (.bool true) h
  · exact sound_of_readWord? (.bool false) h
  · exact sound_of_readWord? .null h
  · exact sound_of_readNumber? h
  · exact sound_of_readNumber? h

theorem readItems? (ih : ReadsSound fuel) {items : List Json}
    (h : readItems? (fuel + 1) depth text = some (items, rest)) : ∀ j ∈ items, Sound j := by
  rw [Json.readItems?] at h
  split at h
  · cases h
  · next item tail hitem =>
    have hsound := ih.value hitem
    split at h
    · cases h
      exact List.forall_mem_singleton.2 hsound
    · obtain ⟨⟨others, after⟩, hread, heq⟩ := Option.map_eq_some_iff.1 h
      cases heq
      exact List.forall_mem_cons.2 ⟨hsound, ih.items hread⟩
    · cases h

theorem readMembers? (ih : ReadsSound fuel) {before members : List (String × Json)}
    (hbefore : (obj before).Sound)
    (h : readMembers? (fuel + 1) depth before text = some (members, rest)) :
    (obj members).Sound := by
  rw [Json.readMembers?] at h
  split at h
  · split at h
    · cases h
    · split at h
      · split at h
        · cases h
        · next value tail hvalue =>
          have hnext := fun key => sound_setMember key hbefore (ih.value hvalue)
          split at h
          · cases h
            exact hnext _
          · exact ih.members (hnext _) h
          · cases h
      · cases h
  · cases h

end ReadsSound

theorem readsSound (fuel : Nat) : ReadsSound fuel := by
  induction fuel with
  | zero => constructor <;> simp [readValue?, readItems?, readMembers?]
  | succ fuel ih => exact ⟨ih.readValue?, ih.readItems?, ih.readMembers?⟩

/-- Whatever is read from a text is a value of a document. -/
theorem sound_of_ofText? {text : String} {j : Json} (h : ofText? text = some j) : j.Sound := by
  unfold ofText? at h
  simp only at h
  split at h
  · rename_i value rest hread
    split_ifs at h
    cases h
    exact (readsSound _).value hread
  · cases h

end ChartCompiler.Json
