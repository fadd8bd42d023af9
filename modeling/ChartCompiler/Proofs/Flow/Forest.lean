import ChartCompiler.Proofs.Flow.Relink
import Mathlib.Data.List.Nodup
import Mathlib.Logic.Relation

/-!
# Forests

A graph is a forest when its two ways of saying who hangs under whom agree: a node is among the
children of another iff it names that one as its parent, it is there once, the roots have no parent
and occur once, and the way up from every node ends. A node without a parent need not be a root: a
copy stands alone until it is linked.

Results:

* `IsForest.not_under_self`: no node hangs under itself.
* `Rooted.outside`: the way up from a node is not touched by a change below another.
* `IsForest.empty`, `IsForest.insert`, `IsForest.attach`: growing keeps a forest.
-/

namespace ChartCompiler.Flow

/-- A node hangs directly under another. -/
def Hangs (g : Flow) (p c : Nat) : Prop := g.parent? c = some p

/-- The second node hangs under the first, at whatever distance. -/
def Under (g : Flow) : Nat → Nat → Prop := Relation.TransGen g.Hangs

/-- The second node is the first or hangs under it. -/
def Within (g : Flow) : Nat → Nat → Prop := Relation.ReflTransGen g.Hangs

/-- The way up from a node ends. -/
inductive Rooted (g : Flow) : Nat → Prop
  | top {id : Nat} : g.parent? id = none → Rooted g id
  | under {id p : Nat} : g.parent? id = some p → Rooted g p → Rooted g id

structure IsForest (g : Flow) : Prop where
  parent_live : ∀ {c p}, g.parent? c = some p → g.contains p = true
  mem_children : ∀ {p place c}, g.place? p = some place →
    (c ∈ place.children ↔ g.parent? c = some p)
  children_nodup : ∀ {p place}, g.place? p = some place → place.children.Nodup
  roots_live : ∀ {r}, r ∈ g.roots → g.contains r = true
  roots_top : ∀ {r}, r ∈ g.roots → g.parent? r = none
  roots_nodup : g.roots.Nodup
  rooted : ∀ id, g.Rooted id

/-! ## Ways up -/

theorem Rooted.not_under_self {g : Flow} {id : Nat} (h : g.Rooted id) : ¬g.Under id id := by
  induction h with
  | top htop =>
    intro hu
    obtain ⟨b, -, hb⟩ := Relation.TransGen.tail'_iff.1 hu
    simp [Hangs, htop] at hb
  | @under id p hp _ ih =>
    intro hu
    obtain ⟨b, hib, hb⟩ := Relation.TransGen.tail'_iff.1 hu
    obtain rfl : p = b := Option.some.inj (hp.symm.trans hb)
    exact ih (Relation.TransGen.head' hp hib)

/-- A change below one node does not touch the way up from any other. -/
theorem Rooted.outside {g g' : Flow} {a : Nat}
    (hsame : ∀ i, ¬g.Within a i → g'.parent? i = g.parent? i) {i : Nat} (hi : g.Rooted i)
    (hn : ¬g.Within a i) : g'.Rooted i := by
  induction hi with
  | top htop => exact .top (by rw [hsame _ hn, htop])
  | @under i p hp _ ih =>
    exact .under (by rw [hsame _ hn, hp]) (ih fun hw => hn (Relation.ReflTransGen.tail hw hp))

namespace IsForest

variable {g : Flow}

theorem not_under_self (hg : g.IsForest) (id : Nat) : ¬g.Under id id :=
  (hg.rooted id).not_under_self

theorem parent?_ne_self (hg : g.IsForest) (id : Nat) : g.parent? id ≠ some id :=
  fun h => hg.not_under_self id (.single h)

/-- Induction from parents to children. -/
theorem up_induction (hg : g.IsForest) {motive : Nat → Prop}
    (step : ∀ id, (∀ p, g.parent? id = some p → motive p) → motive id) (id : Nat) : motive id := by
  induction hg.rooted id with
  | top htop => exact step _ (by simp [htop])
  | under hp _ ih => exact step _ fun q hq => Option.some.inj (hp.symm.trans hq) ▸ ih

theorem child_live (hg : g.IsForest) {p c : Nat} {place : Place} (hp : g.place? p = some place)
    (hc : c ∈ place.children) : g.contains c = true :=
  contains_of_parent? ((hg.mem_children hp).1 hc)

/-- A node that is no root of a forest and has a parent stands among that parent's children. -/
theorem exists_siblings (hg : g.IsForest) {c p : Nat} (h : g.parent? c = some p) :
    ∃ place, g.place? p = some place ∧ c ∈ place.children := by
  obtain ⟨place, hp⟩ := contains_iff.1 (hg.parent_live h)
  exact ⟨place, hp, (hg.mem_children hp).2 h⟩

/-- The parent of an only child has no other. -/
theorem only_child (hg : g.IsForest) {c p : Nat} {place : Place} (hp : g.place? p = some place)
    (h : g.parent? c = some p) (hlen : place.children.length = 1) : place.children = [c] := by
  obtain ⟨x, hx⟩ := List.length_eq_one_iff.1 hlen
  have hc : c ∈ place.children := (hg.mem_children hp).2 h
  rw [hx, List.mem_singleton] at hc
  rw [hx, hc]

end IsForest

/-! ## Growing -/

theorem IsForest.empty : Flow.empty.IsForest := by
  have hp : ∀ i, Flow.empty.place? i = none := by simp [Flow.empty, place?]
  have hpar : ∀ i, Flow.empty.parent? i = none := by simp [parent?, hp]
  refine ⟨?_, ?_, ?_, ?_, ?_, List.nodup_nil, fun id => .top (hpar id)⟩
  · simp [hpar]
  · simp [hp]
  · simp [hp]
  · simp [Flow.empty]
  · simp [Flow.empty]

@[simp] theorem nextId_insert (g : Flow) (n : FlowNode) : (g.insert n).nextId = g.nextId + 1 := by
  simp [insert, nextId]

theorem parent?_insert (g : Flow) (n : FlowNode) (i : Nat) :
    (g.insert n).parent? i = g.parent? i := by
  unfold parent?
  rw [place?_insert]
  split_ifs with h
  · simp [h, place?_eq_none_of_le]
  · rfl

theorem node?_insert (g : Flow) (n : FlowNode) (i : Nat) :
    (g.insert n).node? i = if i = g.nextId then some n else g.node? i := by
  unfold node?
  rw [place?_insert]
  split_ifs <;> rfl

theorem contains_insert (g : Flow) (n : FlowNode) (i : Nat) :
    (g.insert n).contains i = true ↔ i = g.nextId ∨ g.contains i = true := by
  unfold contains
  rw [place?_insert]
  split_ifs with h <;> simp [h]

theorem ne_nextId_of_contains {g : Flow} {i : Nat} (h : g.contains i = true) : i ≠ g.nextId := by
  obtain ⟨p, hp⟩ := contains_iff.1 h
  exact Nat.ne_of_lt (lt_nextId_of_place? hp)

theorem Rooted.of_parents {g g' : Flow} (h : ∀ i, g'.parent? i = g.parent? i) {i : Nat}
    (hi : g.Rooted i) : g'.Rooted i := by
  induction hi with
  | top htop => exact .top (by rw [h, htop])
  | under hp _ ih => exact .under (by rw [h, hp]) ih

/-- A new node stands alone. -/
theorem IsForest.insert {g : Flow} (hg : g.IsForest) (n : FlowNode) : (g.insert n).IsForest := by
  have hfresh : ∀ c, g.parent? c ≠ some g.nextId := fun c hc =>
    ne_nextId_of_contains (hg.parent_live hc) rfl
  refine ⟨?_, ?_, ?_, ?_, ?_, hg.roots_nodup, fun id => (hg.rooted id).of_parents
    (parent?_insert g n)⟩
  · intro c p h
    rw [parent?_insert] at h
    exact (contains_insert g n p).2 (Or.inr (hg.parent_live h))
  · intro p place c h
    rw [place?_insert] at h
    rw [parent?_insert]
    split_ifs at h with hp
    · cases h
      simpa [hp] using hfresh c
    · exact hg.mem_children h
  · intro p place h
    rw [place?_insert] at h
    split_ifs at h with hp
    · cases h
      exact List.nodup_nil
    · exact hg.children_nodup h
  · exact fun h => (contains_insert g n _).2 (Or.inr (hg.roots_live h))
  · intro r h
    rw [parent?_insert]
    exact hg.roots_top h

/-- What linking leaves. -/
def attached (g : Flow) (parent : Option Nat) (id : Nat) : Flow :=
  g.relink (linked parent [id]) fun l => if parent = none then l ++ [id] else l

theorem parent?_attached {g : Flow} {parent : Option Nat} {id : Nat}
    (hid : g.contains id = true) (i : Nat) :
    (g.attached parent id).parent? i = if i = id then parent else g.parent? i := by
  simp only [parent?, attached, place?_relink]
  split_ifs with h
  · obtain ⟨p, hp⟩ := contains_iff.1 hid
    subst h
    simp [hp, linked]
  · cases g.place? i <;> simp [linked, h]

theorem node?_attached (g : Flow) (parent : Option Nat) (id i : Nat) :
    (g.attached parent id).node? i = g.node? i := by
  simp only [node?, attached, place?_relink, Option.map_map]
  rfl

/-- Linking a node that stands alone: under a node that is not within it, or as a root. -/
theorem IsForest.attached {g : Flow} (hg : g.IsForest) {parent : Option Nat} {id : Nat}
    (hid : g.contains id = true) (htop : g.parent? id = none) (hroot : id ∉ g.roots)
    (hparent : ∀ p, parent = some p → g.contains p = true ∧ ¬g.Within id p) :
    (g.attached parent id).IsForest := by
  have hpar : ∀ i, (g.attached parent id).parent? i = if i = id then parent else g.parent? i :=
    parent?_attached hid
  have hcont : ∀ i, (g.attached parent id).contains i = g.contains i := fun i => by
    simp [Flow.attached]
  have hne : ∀ p, parent = some p → p ≠ id := fun p hp e =>
    (hparent p hp).2 (e ▸ Relation.ReflTransGen.refl)
  have hout : ∀ i, ¬g.Within id i → (g.attached parent id).Rooted i := fun i =>
    Rooted.outside (fun j hj => by
      rw [hpar, if_neg]
      rintro rfl
      exact hj Relation.ReflTransGen.refl) (hg.rooted i)
  have hself : (g.attached parent id).Rooted id := by
    cases parent with
    | none => exact .top (by simp [hpar])
    | some p => exact .under (by simp [hpar]) (hout p (hparent p rfl).2)
  refine ⟨?_, ?_, ?_, ?_, ?_, ?_, ?_⟩
  · intro c p h
    rw [hpar] at h
    rw [hcont]
    split_ifs at h with hc
    · exact (hparent p h).1
    · exact hg.parent_live h
  · intro p place c h
    simp only [Flow.attached, place?_relink, Option.map_eq_some_iff] at h
    obtain ⟨old, hold, rfl⟩ := h
    have hmem := hg.mem_children hold (c := c)
    rw [hpar]
    simp only [linked]
    split_ifs with h1 h2 h2
    · simp [h1, h2]
    · simp [hmem, h2]
    · have hc : g.parent? c ≠ some p := by simp [h2, htop]
      simpa [h1, hmem] using hc
    · exact hmem
  · intro p place h
    simp only [Flow.attached, place?_relink, Option.map_eq_some_iff] at h
    obtain ⟨old, hold, rfl⟩ := h
    have hfresh : id ∉ old.children := fun hm => by
      simp [(hg.mem_children hold).1 hm] at htop
    simp only [linked]
    split_ifs
    · exact (hg.children_nodup hold).append (List.nodup_singleton id) (by simpa using hfresh)
    · exact hg.children_nodup hold
  · intro r h
    rw [hcont]
    simp only [Flow.attached, roots_relink] at h
    split_ifs at h
    · rcases List.mem_append.1 h with h | h
      · exact hg.roots_live h
      · exact List.mem_singleton.1 h ▸ hid
    · exact hg.roots_live h
  · intro r h
    rw [hpar]
    simp only [Flow.attached, roots_relink] at h
    by_cases he : r = id
    · rw [if_pos he]
      by_contra hne
      rw [if_neg hne] at h
      exact hroot (he ▸ h)
    · rw [if_neg he]
      split_ifs at h
      · exact hg.roots_top ((List.mem_append.1 h).resolve_right (by simpa using he))
      · exact hg.roots_top h
  · simp only [Flow.attached, roots_relink]
    split_ifs
    · exact hg.roots_nodup.append (List.nodup_singleton id) (by simpa using hroot)
    · exact hg.roots_nodup
  · refine fun i => ?_
    induction hg.rooted i with
    | @top i hi =>
      by_cases he : i = id
      · exact he ▸ hself
      · exact .top (by rw [hpar, if_neg he, hi])
    | @under i p hp _ ih =>
      by_cases he : i = id
      · exact he ▸ hself
      · exact .under (by rw [hpar, if_neg he, hp]) ih

end ChartCompiler.Flow
