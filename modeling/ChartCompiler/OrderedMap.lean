/-!
# Sets and maps that keep their order

Sets and maps whose members stay in the order in which they were first put in. A key that comes
again keeps its place.

Results:

* `OrderedSet.mem_insert`, `OrderedSet.mem_union`, `OrderedSet.mem_ofList`: membership.
* `OrderedMap.keys_upsert`: the keys after an update.
* `OrderedMap.get?_upsert`: what is found after an update.
* `OrderedMap.keys_mergeWith`: the keys of two maps together.
-/

namespace ChartCompiler

/-! ## Sets -/

/-- A list without repetitions. -/
@[ext]
structure OrderedSet (α : Type) where
  toList : List α
  nodup : toList.Nodup

namespace OrderedSet

variable {α : Type} [DecidableEq α]

instance : DecidableEq (OrderedSet α) := fun a b =>
  decidable_of_iff (a.toList = b.toList) ⟨OrderedSet.ext, fun h => h ▸ rfl⟩

omit [DecidableEq α] in
/-- The set without members. -/
def empty : OrderedSet α := ⟨[], List.nodup_nil⟩

instance : EmptyCollection (OrderedSet α) := ⟨empty⟩

instance : Inhabited (OrderedSet α) := ⟨empty⟩

instance : Membership α (OrderedSet α) := ⟨fun s a => a ∈ s.toList⟩

omit [DecidableEq α] in
theorem mem_iff {a : α} {s : OrderedSet α} : a ∈ s ↔ a ∈ s.toList := Iff.rfl

instance (a : α) (s : OrderedSet α) : Decidable (a ∈ s) :=
  inferInstanceAs (Decidable (a ∈ s.toList))

/-- Puts a member at the end, unless it is in the set. -/
def insert (s : OrderedSet α) (a : α) : OrderedSet α :=
  if h : a ∈ s.toList then s
  else ⟨s.toList ++ [a], by
    rw [List.nodup_append]
    refine ⟨s.nodup, by simp, ?_⟩
    intro x hx y hy hxy
    rw [List.mem_singleton.1 hy] at hxy
    exact h (hxy ▸ hx)⟩

/-- Puts the members of a list in, one after the other. -/
def insertAll (s : OrderedSet α) (items : List α) : OrderedSet α := items.foldl insert s

/-- The set of a list's members, in order of first appearance. -/
def ofList (items : List α) : OrderedSet α := insertAll empty items

/-- The members of the first set, then those of the second that are new. -/
def union (s t : OrderedSet α) : OrderedSet α := s.insertAll t.toList

def isEmpty (s : OrderedSet α) : Bool := s.toList.isEmpty

/-- Whether two sets have no common member. -/
def disjoint (s t : OrderedSet α) : Bool := s.toList.all fun a => !decide (a ∈ t)

/-- Whether two sets have the same members, in whatever order. -/
def sameMembers (s t : OrderedSet α) : Bool :=
  s.toList.length == t.toList.length && s.toList.all fun a => decide (a ∈ t)

@[simp] theorem mem_insert {a b : α} {s : OrderedSet α} : a ∈ s.insert b ↔ a ∈ s ∨ a = b := by
  simp only [mem_iff, insert]
  split
  · next h => exact ⟨Or.inl, fun | .inl ha => ha | .inr hb => hb ▸ h⟩
  · simp

@[simp] theorem mem_insertAll {a : α} {items : List α} {s : OrderedSet α} :
    a ∈ s.insertAll items ↔ a ∈ s ∨ a ∈ items := by
  induction items generalizing s with
  | nil => simp [insertAll]
  | cons b rest ih =>
    have : s.insertAll (b :: rest) = (s.insert b).insertAll rest := rfl
    simp [this, ih, or_assoc]

omit [DecidableEq α] in
@[simp] theorem not_mem_empty {a : α} : ¬a ∈ (empty : OrderedSet α) := List.not_mem_nil

@[simp] theorem mem_ofList {a : α} {items : List α} : a ∈ ofList items ↔ a ∈ items := by
  simp [ofList]

@[simp] theorem mem_union {a : α} {s t : OrderedSet α} : a ∈ s.union t ↔ a ∈ s ∨ a ∈ t :=
  mem_insertAll

theorem disjoint_iff {s t : OrderedSet α} : s.disjoint t = true ↔ ∀ a ∈ s, ¬a ∈ t := by
  simp [disjoint, mem_iff]

end OrderedSet

/-! ## Maps -/

/-- A list of keys with values, without repeated keys. -/
structure OrderedMap (κ α : Type) where
  entries : List (κ × α)
  nodup : (entries.map Prod.fst).Nodup

namespace OrderedMap

variable {κ α β : Type} [DecidableEq κ]

omit [DecidableEq κ] in
/-- The map without entries. -/
def empty : OrderedMap κ α := ⟨[], List.nodup_nil⟩

instance : EmptyCollection (OrderedMap κ α) := ⟨empty⟩

instance : Inhabited (OrderedMap κ α) := ⟨empty⟩

omit [DecidableEq κ] in
def keys (m : OrderedMap κ α) : List κ := m.entries.map Prod.fst

omit [DecidableEq κ] in
def values (m : OrderedMap κ α) : List α := m.entries.map Prod.snd

omit [DecidableEq κ] in
def isEmpty (m : OrderedMap κ α) : Bool := m.entries.isEmpty

/-- The value under a key. -/
def get? (m : OrderedMap κ α) (key : κ) : Option α := m.entries.lookup key

/-- A list of entries after an update. -/
def upsertEntries (key : κ) (fresh : α) (merge : α → α) : List (κ × α) → List (κ × α)
  | [] => [(key, fresh)]
  | (k, v) :: rest =>
    if k = key then (k, merge v) :: rest else (k, v) :: upsertEntries key fresh merge rest

theorem keys_upsertEntries (key : κ) (fresh : α) (merge : α → α) (entries : List (κ × α)) :
    (upsertEntries key fresh merge entries).map Prod.fst =
      if key ∈ entries.map Prod.fst then entries.map Prod.fst
      else entries.map Prod.fst ++ [key] := by
  induction entries with
  | nil => rfl
  | cons e rest ih =>
    obtain ⟨k, v⟩ := e
    by_cases h : k = key
    · simp [upsertEntries, h]
    · have h' : ¬key = k := fun e => h e.symm
      simp only [upsertEntries, h, if_false, List.map_cons, ih, List.mem_cons, h', false_or]
      split <;> simp

/-- Changes the value under a key, or puts a fresh one at the end. -/
def upsert (m : OrderedMap κ α) (key : κ) (fresh : α) (merge : α → α) : OrderedMap κ α :=
  ⟨upsertEntries key fresh merge m.entries, by
    rw [keys_upsertEntries]
    split
    · exact m.nodup
    · next h =>
      rw [List.nodup_append]
      refine ⟨m.nodup, by simp, ?_⟩
      intro x hx y hy hxy
      rw [List.mem_singleton.1 hy] at hxy
      exact h (hxy ▸ hx)⟩

/-- Sets the value under a key; a key that is there keeps its place. -/
def insert (m : OrderedMap κ α) (key : κ) (value : α) : OrderedMap κ α :=
  m.upsert key value fun _ => value

/-- Puts a value in, unless the key is there. -/
def insertNew (m : OrderedMap κ α) (key : κ) (value : α) : OrderedMap κ α :=
  m.upsert key value id

/-- The map of a list's entries: a repeated key keeps its first place and takes its last value. -/
def ofList (entries : List (κ × α)) : OrderedMap κ α :=
  entries.foldl (fun m e => m.insert e.1 e.2) empty

/-- The entries of both maps. Under a common key, the value of the first is filled from that of the
second. -/
def mergeWith (fill : α → α → α) (m n : OrderedMap κ α) : OrderedMap κ α :=
  n.entries.foldl (fun m e => m.upsert e.1 e.2 fun old => fill old e.2) m

/-- Whether two maps have equal values under the same keys, in whatever order. -/
def sameEntries (same : α → α → Bool) (m n : OrderedMap κ α) : Bool :=
  m.entries.length == n.entries.length &&
    m.entries.all fun e => (n.get? e.1).any (same e.2)

theorem keys_upsert (m : OrderedMap κ α) (key : κ) (fresh : α) (merge : α → α) :
    (m.upsert key fresh merge).keys = if key ∈ m.keys then m.keys else m.keys ++ [key] :=
  keys_upsertEntries key fresh merge m.entries

theorem lookup_upsertEntries (key k : κ) (fresh : α) (merge : α → α) (entries : List (κ × α)) :
    (upsertEntries key fresh merge entries).lookup k =
      if k = key then some ((entries.lookup key).elim fresh merge) else entries.lookup k := by
  induction entries with
  | nil =>
    by_cases h : k = key <;> simp [upsertEntries, List.lookup_cons, h]
    simp [beq_eq_false_iff_ne.2 h]
  | cons e rest ih =>
    obtain ⟨k', v⟩ := e
    by_cases h : k' = key
    · subst h
      by_cases hk : k = k'
      · simp [upsertEntries, hk]
      · simp [upsertEntries, List.lookup_cons, hk, beq_eq_false_iff_ne.2 hk]
    · have h' : (key == k') = false := beq_eq_false_iff_ne.2 fun e => h e.symm
      by_cases hk : k = k'
      · subst hk
        simp [upsertEntries, h]
      · have hk' : (k == k') = false := beq_eq_false_iff_ne.2 hk
        simp [upsertEntries, List.lookup_cons, h, h', hk', ih]

theorem get?_upsert (m : OrderedMap κ α) (key k : κ) (fresh : α) (merge : α → α) :
    (m.upsert key fresh merge).get? k =
      if k = key then some ((m.get? key).elim fresh merge) else m.get? k :=
  lookup_upsertEntries key k fresh merge m.entries

theorem keys_foldl_upsert (fill : α → α → α) (entries : List (κ × α))
    (h : (entries.map Prod.fst).Nodup) (m : OrderedMap κ α) :
    (entries.foldl (fun m e => m.upsert e.1 e.2 fun old => fill old e.2) m).keys =
      m.keys ++ (entries.map Prod.fst).filter fun k => decide (k ∉ m.keys) := by
  induction entries generalizing m with
  | nil => simp
  | cons e rest ih =>
    obtain ⟨k, v⟩ := e
    obtain ⟨hk, hrest⟩ := List.nodup_cons.1 h
    rw [List.foldl_cons, ih hrest, keys_upsert]
    by_cases hm : k ∈ m.keys
    · simp [hm]
    · have : ∀ k' ∈ rest.map Prod.fst, (k' ∉ m.keys ++ [k]) = (k' ∉ m.keys) := by
        intro k' hk'
        have hne : k' ≠ k := fun e => hk (e ▸ hk')
        simp [hne]
      simp only [hm, if_false, List.map_cons, List.filter_cons, not_false_eq_true, decide_true,
        if_true, List.append_assoc, List.singleton_append]
      congr 2
      exact List.filter_congr fun k' hk' => decide_eq_decide.2 (by rw [this k' hk'])

/-- A union of maps has the keys of the first, then the new ones of the second. -/
theorem keys_mergeWith (fill : α → α → α) (m n : OrderedMap κ α) :
    (m.mergeWith fill n).keys = m.keys ++ n.keys.filter fun k => decide (k ∉ m.keys) :=
  keys_foldl_upsert fill n.entries n.nodup m

end OrderedMap

/-- Names of fields, in order of first mention. -/
abbrev FieldSet := OrderedSet String

end ChartCompiler
