import ChartCompiler.Flow.Graph
import Mathlib.Tactic.SplitIfs
import Mathlib.Tactic.Tauto

/-!
# Relinking a graph

Every operation on a graph changes some places, the list of roots, or both. Such a change is one
function on places and one on roots (`Flow.relink`), changes compose, and the small steps of
`Flow.Graph` are changes of this kind as long as they come to places that have a node.

Results:

* `modify_eq`, `setParent_eq`, `modifySiblings_eq`, `attach_eq`, `attachAll_eq`: the small steps.
* `place?_relink`, `place?_erase`: what is found afterwards.
* `mem_splice`, `nodup_splice`: the members of a spliced list.
-/

namespace ChartCompiler.Flow

/-! ## Parents -/

/-- The node that a node hangs under. -/
def parent? (g : Flow) (id : Nat) : Option Nat := (g.place? id).bind Place.parent

theorem parent?_of_place? {g : Flow} {id : Nat} {p : Place} (h : g.place? id = some p) :
    g.parent? id = p.parent := by
  simp [parent?, h]

theorem place?_of_parent? {g : Flow} {id p : Nat} (h : g.parent? id = some p) :
    ∃ place, g.place? id = some place ∧ place.parent = some p := by
  simpa [parent?, Option.bind_eq_some_iff] using h

theorem node?_of_place? {g : Flow} {id : Nat} {p : Place} (h : g.place? id = some p) :
    g.node? id = some p.node := by
  simp [node?, h]

theorem place?_of_node? {g : Flow} {id : Nat} {n : FlowNode} (h : g.node? id = some n) :
    ∃ place, g.place? id = some place ∧ place.node = n := by
  simpa [node?] using h

theorem contains_iff {g : Flow} {id : Nat} : g.contains id = true ↔ ∃ p, g.place? id = some p := by
  simp [contains, Option.isSome_iff_exists]

theorem contains_of_place? {g : Flow} {id : Nat} {p : Place} (h : g.place? id = some p) :
    g.contains id = true :=
  contains_iff.2 ⟨p, h⟩

theorem contains_of_parent? {g : Flow} {id p : Nat} (h : g.parent? id = some p) :
    g.contains id = true := by
  obtain ⟨place, hp, -⟩ := place?_of_parent? h
  exact contains_of_place? hp

theorem place_eq {g : Flow} {id : Nat} {p : Place} (h : g.place? id = some p) :
    g.place id = .ok p := by
  simp [place, h]

/-! ## Changes of places and roots -/

/-- Changes every place and the roots. -/
def relink (g : Flow) (onPlace : Nat → Place → Place) (onRoots : List Nat → List Nat) : Flow :=
  ⟨g.places.mapIdx fun i p => p.map (onPlace i), onRoots g.roots⟩

@[simp] theorem place?_relink (g : Flow) (f : Nat → Place → Place) (r : List Nat → List Nat)
    (i : Nat) : (g.relink f r).place? i = (g.place? i).map (f i) := by
  simp only [place?, relink, Array.getElem?_mapIdx]
  cases g.places[i]? <;> rfl

@[simp] theorem roots_relink (g : Flow) (f : Nat → Place → Place) (r : List Nat → List Nat) :
    (g.relink f r).roots = r g.roots := rfl

@[simp] theorem nextId_relink (g : Flow) (f : Nat → Place → Place) (r : List Nat → List Nat) :
    (g.relink f r).nextId = g.nextId := by
  simp [nextId, relink]

@[simp] theorem contains_relink (g : Flow) (f : Nat → Place → Place) (r : List Nat → List Nat)
    (i : Nat) : (g.relink f r).contains i = g.contains i := by
  simp [contains]

theorem relink_relink (g : Flow) (f f' : Nat → Place → Place) (r r' : List Nat → List Nat) :
    (g.relink f r).relink f' r' = g.relink (fun i p => f' i (f i p)) (fun l => r' (r l)) := by
  simp only [relink, Flow.mk.injEq, and_true]
  apply Array.ext_getElem?
  intro i
  simp [Array.getElem?_mapIdx, Option.map_map, Function.comp_def]

/-- Two changes are equal if they do the same at every number. -/
theorem relink_congr {g : Flow} {f f' : Nat → Place → Place} {r r' : List Nat → List Nat}
    (hf : ∀ i p, f i p = f' i p) (hr : r g.roots = r' g.roots) :
    g.relink f r = g.relink f' r' := by
  have : f = f' := funext fun i => funext fun p => hf i p
  simp [relink, this, hr]

/-- Graphs with the same numbers, places and roots are equal. -/
theorem ext_place? {g g' : Flow} (hn : g.nextId = g'.nextId)
    (hp : ∀ i, g.place? i = g'.place? i) (hr : g.roots = g'.roots) : g = g' := by
  obtain ⟨places, roots⟩ := g
  obtain ⟨places', roots'⟩ := g'
  simp only [nextId] at hn
  simp only [Flow.mk.injEq]
  refine ⟨Array.ext hn fun i h h' => ?_, hr⟩
  have := hp i
  simpa [place?, h, h'] using this

theorem relink_self {g : Flow} {f : Nat → Place → Place} {r : List Nat → List Nat}
    (hf : ∀ i p, g.place? i = some p → f i p = p) (hr : r g.roots = g.roots) :
    g.relink f r = g := by
  refine ext_place? (nextId_relink g f r) (fun i => ?_) hr
  rw [place?_relink]
  cases hp : g.place? i with
  | none => rfl
  | some p => rw [Option.map_some, hf i p hp]

@[simp] theorem nextId_erase (g : Flow) (id : Nat) : (g.erase id).nextId = g.nextId := by
  simp [nextId, erase, set]

@[simp] theorem roots_erase (g : Flow) (id : Nat) : (g.erase id).roots = g.roots := rfl

theorem place?_eq_none_of_le {g : Flow} {id : Nat} (h : g.nextId ≤ id) : g.place? id = none := by
  cases hp : g.place? id with
  | none => rfl
  | some p => exact absurd (lt_nextId_of_place? hp) (by omega)

@[simp] theorem place?_erase (g : Flow) (id i : Nat) :
    (g.erase id).place? i = if i = id then none else g.place? i := by
  unfold erase
  rw [place?_set]
  by_cases h : i = id
  · subst h
    by_cases hlt : i < g.nextId
    · simp [hlt]
    · simp [hlt, place?_eq_none_of_le (Nat.le_of_not_lt hlt)]
  · simp [h]

theorem erase_relink (g : Flow) (id : Nat) (f : Nat → Place → Place) (r : List Nat → List Nat) :
    (g.erase id).relink f r = (g.relink f r).erase id := by
  simp only [relink, erase, set, Flow.mk.injEq, and_true]
  apply Array.ext_getElem?
  intro i
  simp only [Array.getElem?_mapIdx, Array.getElem?_setIfInBounds, Array.size_mapIdx]
  split_ifs <;> rfl

/-! ## The small steps -/

theorem modify_eq {g : Flow} {id : Nat} (h : g.contains id = true) (f : Place → Place) :
    g.modify id f = .ok (g.relink (fun i p => if i = id then f p else p) fun l => l) := by
  obtain ⟨p, hp⟩ := contains_iff.1 h
  simp only [modify, place_eq hp, bind, Except.bind, pure, Except.pure, Except.ok.injEq]
  simp only [set, relink, Flow.mk.injEq, and_true]
  have hi : g.places[id]? = some (some p) := by
    simpa [place?, Option.join_eq_some_iff] using hp
  apply Array.ext_getElem?
  intro i
  simp only [Array.getElem?_mapIdx, Array.getElem?_setIfInBounds]
  by_cases hid : id = i
  · subst hid
    have hlt : id < g.places.size := lt_nextId_of_place? hp
    rw [if_pos rfl, if_pos hlt, hi]
    simp
  · have hid' : ¬i = id := fun e => hid e.symm
    simp [hid, hid']

theorem setParent_eq (parent : Option Nat) :
    ∀ {ids : List Nat} {g : Flow}, (∀ i ∈ ids, g.contains i = true) →
      g.setParent parent ids =
        .ok (g.relink (fun i p => if i ∈ ids then { p with parent := parent } else p) fun l => l)
  | [], g, _ => by
    have : g.relink (fun i p => if i ∈ ([] : List Nat) then { p with parent := parent } else p)
        (fun l => l) = g := relink_self (by simp) rfl
    rw [this]
    rfl
  | id :: ids, g, h => by
    have hid : g.contains id = true := h id (by simp)
    unfold setParent
    rw [List.foldlM_cons, modify_eq hid]
    simp only [bind, Except.bind]
    rw [← setParent, setParent_eq parent (fun i hi => by simpa using h i (by simp [hi])),
      relink_relink]
    congr 1
    refine relink_congr (fun i p => ?_) rfl
    by_cases h1 : i = id <;> by_cases h2 : i ∈ ids <;> simp [h1, h2]

theorem modifySiblings_eq {g : Flow} {parent : Option Nat}
    (h : ∀ p, parent = some p → g.contains p = true) (f : List Nat → List Nat) :
    g.modifySiblings parent f =
      .ok (g.relink
        (fun i p => if parent = some i then { p with children := f p.children } else p)
        (fun l => if parent = none then f l else l)) := by
  cases parent with
  | none =>
    have : g.relink (fun i p => if (none : Option Nat) = some i then
        { p with children := f p.children } else p) (fun l => if (none : Option Nat) = none
        then f l else l) = { g with roots := f g.roots } := by
      have hself : g.relink (fun _ p => p) (fun l => l) = g := relink_self (by simp) rfl
      simp only [relink] at hself ⊢
      obtain ⟨places, roots⟩ := g
      simpa using hself
    rw [this]
    rfl
  | some q =>
    rw [modifySiblings, modify_eq (h q rfl)]
    congr 1
    refine relink_congr (fun i p => ?_) (by simp)
    by_cases hi : i = q
    · simp [hi]
    · have hi' : ¬q = i := fun e => hi e.symm
      simp [hi, hi']

/-- How a place changes when a node is linked under a parent. -/
def linked (parent : Option Nat) (ids : List Nat) (i : Nat) (p : Place) : Place :=
  { p with
    parent := if i ∈ ids then parent else p.parent
    children := if parent = some i then p.children ++ ids else p.children }

theorem linked_linked (parent : Option Nat) (a b : List Nat) (i : Nat) (p : Place) :
    linked parent b i (linked parent a i p) = linked parent (a ++ b) i p := by
  have h1 : (if i ∈ b then parent else if i ∈ a then parent else p.parent) =
      if i ∈ a ++ b then parent else p.parent := by
    by_cases ha : i ∈ a <;> simp [ha]
  have h2 : (if parent = some i then
      (if parent = some i then p.children ++ a else p.children) ++ b
      else if parent = some i then p.children ++ a else p.children) =
      if parent = some i then p.children ++ (a ++ b) else p.children := by
    split_ifs <;> simp
  simp only [linked, h1, h2]

theorem attach_eq {g : Flow} {parent : Option Nat} {id : Nat} (hid : g.contains id = true)
    (hp : ∀ p, parent = some p → g.contains p = true) :
    g.attach parent id =
      .ok (g.relink (linked parent [id]) fun l => if parent = none then l ++ [id] else l) := by
  have h1 : g.setParent parent [id] =
      .ok (g.relink (fun i p => if i ∈ [id] then { p with parent := parent } else p)
        fun l => l) := setParent_eq parent (by simpa using hid)
  simp only [attach, h1, bind, Except.bind]
  rw [modifySiblings_eq (by simpa using hp), relink_relink]
  congr 1
  refine relink_congr (fun i p => ?_) rfl
  simp only [linked, List.mem_singleton]
  split_ifs <;> rfl

/-- Linking several nodes under one parent, one after the other. -/
theorem attachAll_eq {keep : Nat} :
    ∀ {ids : List Nat} {g : Flow}, g.contains keep = true → (∀ i ∈ ids, g.contains i = true) →
      ids.foldlM (fun g id => g.attach (some keep) id) g =
        .ok (g.relink (linked (some keep) ids) fun l => l)
  | [], g, _, _ => by
    have : g.relink (linked (some keep) []) (fun l => l) = g :=
      relink_self (by intro i p; simp [linked]) rfl
    rw [this]
    rfl
  | id :: ids, g, hk, h => by
    rw [List.foldlM_cons, attach_eq (h id (by simp)) (by simpa using hk)]
    simp only [bind, Except.bind]
    rw [attachAll_eq (by simpa using hk) (fun i hi => by simpa using h i (by simp [hi])),
      relink_relink]
    congr 1
    exact relink_congr (fun i p => linked_linked _ [id] ids i p) (by simp)

/-! ## Splicing -/

theorem splice_append_cons {id : Nat} (items : List Nat) {l r : List Nat} (h : id ∉ l) :
    splice id items (l ++ id :: r) = l ++ items ++ r := by
  induction l with
  | nil => simp [splice]
  | cons a l ih =>
    have ha : ¬a = id := fun e => h (by simp [e])
    simp [splice, ha, ih fun hl => h (by simp [hl])]

theorem splice_of_notMem {id : Nat} (items : List Nat) {l : List Nat} (h : id ∉ l) :
    splice id items l = l := by
  induction l with
  | nil => rfl
  | cons a l ih =>
    have ha : ¬a = id := fun e => h (by simp [e])
    simp [splice, ha, ih fun hl => h (by simp [hl])]

/-- A list without repetitions splits at each of its members. -/
theorem exists_split {id : Nat} {l : List Nat} (h : id ∈ l) (hl : l.Nodup) :
    ∃ a b, l = a ++ id :: b ∧ id ∉ a ∧ id ∉ b := by
  obtain ⟨a, b, rfl⟩ := List.append_of_mem h
  rw [List.nodup_append] at hl
  obtain ⟨-, hb, hab⟩ := hl
  exact ⟨a, b, rfl, fun ha => hab id ha id (by simp) rfl, (List.nodup_cons.1 hb).1⟩

theorem mem_splice {id x : Nat} {items l : List Nat} (h : id ∈ l) (hl : l.Nodup) :
    x ∈ splice id items l ↔ x ∈ items ∨ (x ∈ l ∧ x ≠ id) := by
  obtain ⟨a, b, rfl, ha, hb⟩ := exists_split h hl
  rw [splice_append_cons items ha]
  have h1 : x ∈ a → x ≠ id := fun hx e => ha (e ▸ hx)
  have h2 : x ∈ b → x ≠ id := fun hx e => hb (e ▸ hx)
  simp only [List.mem_append, List.mem_cons]
  tauto

theorem nodup_splice {id : Nat} {items l : List Nat} (h : id ∈ l) (hl : l.Nodup)
    (hi : items.Nodup) (hd : ∀ x ∈ items, x ∉ l) : (splice id items l).Nodup := by
  obtain ⟨a, b, rfl, ha, -⟩ := exists_split h hl
  rw [splice_append_cons items ha]
  simp only [List.nodup_append, List.nodup_cons, List.mem_append, List.mem_cons] at hl hd ⊢
  obtain ⟨ha', ⟨-, hb'⟩, hab⟩ := hl
  refine ⟨⟨ha', hi, fun x hx y hy e => hd y hy (Or.inl (e ▸ hx))⟩, hb', ?_⟩
  rintro x (hx | hx) y hy e
  · exact hab x hx y (Or.inr hy) e
  · exact hd x hx (Or.inr (Or.inr (e ▸ hy)))

end ChartCompiler.Flow
