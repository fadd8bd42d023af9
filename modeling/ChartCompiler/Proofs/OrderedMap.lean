import ChartCompiler.OrderedMap
import Mathlib.Data.List.Basic
import Mathlib.Data.List.Induction

/-!
# What ordered sets and maps hold

Results:

* `OrderedSet.toList_ofList`: the set of a list is the list without repetitions.
* `OrderedMap.mem_entries_iff`: the entries are what is found by key.
* `OrderedMap.get?_insert`: what is found after a value is set.
* `OrderedMap.get?_mergeWith`: what is found in two maps together.
* `OrderedMap.mergeWith_eq_some_iff`: where that comes from.
* `OrderedMap.entries_mergeWith`: the entries of two maps together, in order.
* `OrderedMap.mergeWith_assoc`, `OrderedMap.mergeWith_self`: three maps together, and one twice.
* `OrderedMap.entries_group`: the entries of a map into which items are put by key.
-/

namespace ChartCompiler

theorem eraseDups_concat {α : Type} [DecidableEq α] (l : List α) (a : α) :
    (l ++ [a]).eraseDups = if a ∈ l then l.eraseDups else l.eraseDups ++ [a] := by
  rw [List.eraseDups_append]
  by_cases h : a ∈ l <;> simp [List.removeAll, h, List.eraseDups_cons]

theorem OrderedSet.toList_ofList {α : Type} [DecidableEq α] (items : List α) :
    (ofList items).toList = items.eraseDups := by
  induction items using List.reverseRecOn with
  | nil => rfl
  | append_singleton items a ih =>
    have hconcat : ofList (items ++ [a]) = (ofList items).insert a := by
      simp [ofList, insertAll, List.foldl_append]
    rw [hconcat, insert, eraseDups_concat, ← ih]
    have hmem : a ∈ (ofList items).toList ↔ a ∈ items := mem_ofList
    by_cases h : a ∈ items <;> simp [hmem, h]

namespace OrderedMap

variable {κ α : Type} [DecidableEq κ]

theorem lookup_of_mem {l : List (κ × α)} (hl : (l.map Prod.fst).Nodup) {k : κ} {a : α}
    (h : (k, a) ∈ l) : l.lookup k = some a := by
  induction l with
  | nil => cases h
  | cons e rest ih =>
    obtain ⟨k', b⟩ := e
    obtain ⟨hk', hrest⟩ := List.nodup_cons.1 hl
    rcases List.mem_cons.1 h with heq | hmem
    · cases heq
      simp
    · have hne : k ≠ k' := by
        rintro rfl
        exact hk' (List.mem_map.2 ⟨(k, a), hmem, rfl⟩)
      rw [List.lookup_cons, beq_eq_false_iff_ne.2 hne]
      exact ih hrest hmem

theorem mem_entries_iff (m : OrderedMap κ α) {k : κ} {a : α} :
    (k, a) ∈ m.entries ↔ m.get? k = some a := by
  constructor
  · exact lookup_of_mem m.nodup
  · intro h
    obtain ⟨l, r, hl, -⟩ := List.lookup_eq_some_iff.1 h
    rw [hl]
    simp

theorem get?_insert (m : OrderedMap κ α) (key k : κ) (a : α) :
    (m.insert key a).get? k = if k = key then some a else m.get? k := by
  rw [insert, get?_upsert]
  cases m.get? key <;> rfl

theorem mem_values {m : OrderedMap κ α} {a : α} : a ∈ m.values ↔ ∃ k, m.get? k = some a := by
  simp only [values, List.mem_map, Prod.exists, exists_eq_right, mem_entries_iff]

theorem get?_foldl_upsert (fill : α → α → α) {entries : List (κ × α)}
    (h : (entries.map Prod.fst).Nodup) (m : OrderedMap κ α) (k : κ) :
    (entries.foldl (fun m e => m.upsert e.1 e.2 fun old => fill old e.2) m).get? k =
      (entries.lookup k).elim (m.get? k) fun b => some ((m.get? k).elim b (fill · b)) := by
  induction entries generalizing m with
  | nil => rfl
  | cons e rest ih =>
    obtain ⟨k', b⟩ := e
    obtain ⟨hk', hrest⟩ := List.nodup_cons.1 h
    rw [List.foldl_cons, ih hrest, get?_upsert]
    by_cases hk : k = k'
    · subst hk
      have hnone : rest.lookup k = none := by
        refine Option.eq_none_iff_forall_not_mem.2 fun c hc => hk' ?_
        obtain ⟨l, r, hl, -⟩ := List.lookup_eq_some_iff.1 hc
        rw [hl]
        simp
      simp [hnone]
    · rw [if_neg hk, List.lookup_cons, beq_eq_false_iff_ne.2 hk]

/-- Under a common key, the value of the first is filled from that of the second. -/
theorem get?_mergeWith (fill : α → α → α) (m n : OrderedMap κ α) (k : κ) :
    (m.mergeWith fill n).get? k =
      (n.get? k).elim (m.get? k) fun b => some ((m.get? k).elim b (fill · b)) :=
  get?_foldl_upsert fill n.nodup m k

theorem mergeWith_eq_some_iff {fill : α → α → α} {m n : OrderedMap κ α} {k : κ} {c : α} :
    (m.mergeWith fill n).get? k = some c ↔
      (m.get? k = some c ∧ n.get? k = none) ∨ (m.get? k = none ∧ n.get? k = some c) ∨
        ∃ a b, m.get? k = some a ∧ n.get? k = some b ∧ fill a b = c := by
  rw [get?_mergeWith]
  cases m.get? k with
  | none => cases n.get? k <;> simp
  | some a => cases n.get? k <;> simp

/-- The entries are the keys with what is found under them. -/
theorem entries_eq (m : OrderedMap κ α) :
    m.entries = m.keys.filterMap fun k => (m.get? k).map (k, ·) := by
  rw [keys, List.filterMap_map]
  refine List.filterMap_some.symm.trans (List.filterMap_congr fun e he => ?_)
  rw [Function.comp_apply, m.mem_entries_iff.1 he]
  rfl

/-- Maps with the same keys in the same order, and the same values under them, are equal. -/
theorem eq_of_get? {m n : OrderedMap κ α} (hkeys : m.keys = n.keys)
    (hget : ∀ k, m.get? k = n.get? k) : m = n := by
  have hentries : m.entries = n.entries := by
    rw [entries_eq m, entries_eq n, hkeys]
    exact List.filterMap_congr fun k _ => by rw [hget]
  cases m
  cases n
  cases hentries
  rfl

/-- If it does not matter in which grouping values are filled, it does not for maps, nor for the
order of their keys. -/
theorem mergeWith_assoc {fill : α → α → α} (hfill : ∀ a b c, fill (fill a b) c = fill a (fill b c))
    (m n p : OrderedMap κ α) :
    (m.mergeWith fill n).mergeWith fill p = m.mergeWith fill (n.mergeWith fill p) := by
  refine eq_of_get? ?_ fun k => ?_
  · -- The keys of the last map that are new are those that neither of the others has.
    simp only [keys_mergeWith, List.filter_append, List.filter_filter, List.append_assoc]
    congr 2
    refine List.filter_congr fun k _ => ?_
    by_cases hm : k ∈ m.keys <;> simp [hm]
  · simp only [get?_mergeWith]
    cases m.get? k <;> cases n.get? k <;> cases p.get? k <;> simp [hfill]

theorem mergeWith_self {fill : α → α → α} (hfill : ∀ a, fill a a = a) (m : OrderedMap κ α) :
    m.mergeWith fill m = m := by
  refine eq_of_get? ?_ fun k => ?_
  · have hnew : (m.keys.filter fun k => decide (k ∉ m.keys)) = [] :=
      List.filter_eq_nil_iff.2 fun k hk => by simpa using hk
    rw [keys_mergeWith, hnew, List.append_nil]
  · rw [get?_mergeWith]
    cases m.get? k <;> simp [hfill]

/-- The entries of the first map, filled from those of the second, then the new ones of the
second. -/
theorem entries_mergeWith (fill : α → α → α) (m n : OrderedMap κ α) :
    (m.mergeWith fill n).entries =
      m.entries.map (fun e => (e.1, (n.get? e.1).elim e.2 (fill e.2))) ++
        n.entries.filter fun e => decide (e.1 ∉ m.keys) := by
  rw [entries_eq (m.mergeWith fill n), keys_mergeWith, List.filterMap_append]
  congr 1
  · rw [keys, List.filterMap_map, ← List.filterMap_eq_map]
    refine List.filterMap_congr fun e he => ?_
    simp only [Function.comp_apply, get?_mergeWith, m.mem_entries_iff.1 he, Option.elim_some]
    cases n.get? e.1 <;> rfl
  · have hkeys : n.keys = n.entries.map Prod.fst := rfl
    rw [List.filterMap_filter, ← List.filterMap_eq_filter, hkeys, List.filterMap_map]
    refine List.filterMap_congr fun e he => ?_
    simp only [Function.comp_apply, get?_mergeWith, n.mem_entries_iff.1 he, Option.elim_some]
    by_cases hk : e.1 ∈ m.keys
    · simp [hk, Option.guard]
    · have hnone : m.get? e.1 = none := by
        refine Option.eq_none_iff_forall_not_mem.2 fun a ha => hk ?_
        exact List.mem_map.2 ⟨(e.1, a), m.mem_entries_iff.2 ha, rfl⟩
      simp [hk, hnone, Option.guard]

/-! ## Items by key -/

section

variable {β : Type} (key : α → κ) (step : α → β → β) (init : β)

/-- A map into which items are put one after the other, each added to what is under its key. -/
def group (items : List α) : OrderedMap κ β :=
  items.foldl (fun m a => m.upsert (key a) (step a init) (step a)) empty

theorem group_concat (items : List α) (a : α) :
    group key step init (items ++ [a]) =
      (group key step init items).upsert (key a) (step a init) (step a) := by
  simp [group, List.foldl_append]

theorem keys_group (items : List α) :
    (group key step init items).keys = (items.map key).eraseDups := by
  induction items using List.reverseRecOn with
  | nil => rfl
  | append_singleton items a ih =>
    rw [group_concat, keys_upsert, ih, List.map_append, List.map_singleton, eraseDups_concat]
    simp only [List.mem_eraseDups]

/-- Under a key are the items that have it, in their order. -/
theorem get?_group (items : List α) (k : κ) :
    (group key step init items).get? k =
      if k ∈ items.map key then
        some ((items.filter fun a => decide (key a = k)).foldl (fun b a => step a b) init)
      else none := by
  induction items using List.reverseRecOn with
  | nil => rfl
  | append_singleton items a ih =>
    rw [group_concat, get?_upsert, List.filter_append, List.foldl_append]
    by_cases hk : key a = k
    · subst hk
      rw [ih]
      by_cases hold : key a ∈ items.map key
      · simp [hold]
      · have hnone : (items.filter fun b => decide (key b = key a)) = [] :=
          List.filter_eq_nil_iff.2 fun b hb heq =>
            hold (List.mem_map.2 ⟨b, hb, of_decide_eq_true heq⟩)
        simp [hold, hnone]
    · have hk' : k ≠ key a := fun h => hk h.symm
      simp [ih, hk, hk']

theorem entries_group (items : List α) :
    (group key step init items).entries = (items.map key).eraseDups.map fun k =>
      (k, (items.filter fun a => decide (key a = k)).foldl (fun b a => step a b) init) := by
  rw [entries_eq, keys_group]
  refine .trans (List.filterMap_congr fun k hk => ?_) (congrFun List.filterMap_eq_map _)
  rw [get?_group, if_pos (List.mem_eraseDups.1 hk)]
  rfl

end

end OrderedMap

end ChartCompiler
