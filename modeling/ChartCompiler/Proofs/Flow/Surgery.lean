import ChartCompiler.Proofs.Flow.Forest

/-!
# Surgery on forests

Removing a node, joining two and lifting one above its parent keep a forest. For each there is the
graph that it leaves, in one piece, and the equations by which later proofs know it: the parent and
the node under every number.

Results:

* `remove_eq`, `IsForest.removed`: removing a node.
* `mergeInto_eq`, `IsForest.joined`: joining a node to one that does not hang under it.
* `swapWithParent_eq`, `IsForest.lifted`: lifting a node above its parent.
-/

namespace ChartCompiler.Flow

/-! ## Removing -/

/-- How a place changes when a node is removed from its own. -/
def unlinked (id : Nat) (place : Place) (i : Nat) (p : Place) : Place :=
  { p with
    parent := if i ∈ place.children then place.parent else p.parent
    children := if place.parent = some i then splice id place.children p.children else p.children }

/-- What is left when a node is removed from its place. -/
def removed (g : Flow) (id : Nat) (place : Place) : Flow :=
  (g.relink (unlinked id place)
    fun l => if place.parent = none then splice id place.children l else l).erase id

section Removed

variable {g : Flow} {id : Nat} {place : Place}

theorem remove_eq (hg : g.IsForest) (hp : g.place? id = some place) :
    g.remove id = .ok (g.removed id place) := by
  have hlive : ∀ i ∈ place.children, g.contains i = true := fun i hi => hg.child_live hp hi
  have hparent : ∀ p, place.parent = some p → g.contains p = true := fun p h =>
    hg.parent_live ((parent?_of_place? hp).trans h)
  simp only [remove, place_eq hp, bind, Except.bind, setParent_eq place.parent hlive]
  rw [modifySiblings_eq (by simpa using hparent), relink_relink]
  simp only [pure, Except.pure, removed]
  congr 2
  refine relink_congr (fun i p => ?_) rfl
  simp only [unlinked]
  split_ifs <;> rfl

theorem place?_removed (i : Nat) :
    (g.removed id place).place? i =
      if i = id then none else (g.place? i).map (unlinked id place i) := by
  simp [removed]

@[simp] theorem nextId_removed : (g.removed id place).nextId = g.nextId := by simp [removed]

theorem node?_removed (i : Nat) :
    (g.removed id place).node? i = if i = id then none else g.node? i := by
  unfold node?
  rw [place?_removed]
  by_cases hi : i = id
  · simp [hi]
  · simp only [hi, if_false, Option.map_map]
    rfl

theorem contains_removed (i : Nat) :
    (g.removed id place).contains i = true ↔ i ≠ id ∧ g.contains i = true := by
  unfold contains
  rw [place?_removed]
  split_ifs with h <;> simp [h]

theorem parent?_removed (hg : g.IsForest) (hp : g.place? id = some place) (i : Nat) :
    (g.removed id place).parent? i =
      if i = id then none else if g.parent? i = some id then g.parent? id else g.parent? i := by
  rw [parent?, place?_removed]
  by_cases hi : i = id
  · simp [hi]
  · rw [if_neg hi, if_neg hi, parent?_of_place? hp]
    have hc := hg.mem_children hp (c := i)
    cases hpi : g.place? i with
    | none =>
      have htop : g.parent? i = none := by simp [parent?, hpi]
      simp [htop]
    | some p =>
      rw [parent?_of_place? hpi] at hc ⊢
      simp only [Option.map_some, Option.bind_some, unlinked, hc]

theorem mem_roots_removed (hg : g.IsForest) (hp : g.place? id = some place) {r : Nat}
    (h : r ∈ (g.removed id place).roots) :
    r ≠ id ∧ g.contains r = true ∧ (r ∈ g.roots ∨ (g.parent? r = some id ∧ g.parent? id = none)) := by
  have hid : g.parent? id = place.parent := parent?_of_place? hp
  simp only [removed, roots_erase, roots_relink] at h
  by_cases hq : place.parent = none
  · rw [if_pos hq] at h
    by_cases hin : id ∈ g.roots
    · rcases (mem_splice hin hg.roots_nodup).1 h with h | ⟨h, hne⟩
      · have hc : g.parent? r = some id := (hg.mem_children hp).1 h
        exact ⟨fun e => hg.parent?_ne_self id (e ▸ hc), hg.child_live hp h,
          Or.inr ⟨hc, hid.trans hq⟩⟩
      · exact ⟨hne, hg.roots_live h, Or.inl h⟩
    · rw [splice_of_notMem _ hin] at h
      exact ⟨fun e => hin (e ▸ h), hg.roots_live h, Or.inl h⟩
  · rw [if_neg hq] at h
    exact ⟨fun e => hq (hid ▸ hg.roots_top (e ▸ h)), hg.roots_live h, Or.inl h⟩

theorem IsForest.removed (hg : g.IsForest) (hp : g.place? id = some place) :
    (g.removed id place).IsForest := by
  have hpar := parent?_removed hg hp
  have hid : g.parent? id = place.parent := parent?_of_place? hp
  refine ⟨?_, ?_, ?_, ?_, ?_, ?_, ?_⟩
  · intro c p h
    rw [hpar] at h
    rw [contains_removed]
    split_ifs at h with h1 h2
    · exact ⟨fun e => hg.parent?_ne_self id (e ▸ h), hg.parent_live h⟩
    · exact ⟨fun e => h2 (e ▸ h), hg.parent_live h⟩
  · intro p pl c h
    rw [place?_removed] at h
    by_cases hpid : p = id
    · simp [hpid] at h
    · rw [if_neg hpid] at h
      obtain ⟨old, hold, rfl⟩ := Option.map_eq_some_iff.1 h
      have hself : g.parent? id ≠ some id := hg.parent?_ne_self id
      rw [hpar]
      simp only [unlinked]
      by_cases hq : place.parent = some p
      · have hin : id ∈ old.children := (hg.mem_children hold).2 (hid.trans hq)
        rw [if_pos hq, mem_splice hin (hg.children_nodup hold), hg.mem_children hp,
          hg.mem_children hold]
        grind
      · rw [if_neg hq, hg.mem_children hold]
        grind
  · intro p pl h
    rw [place?_removed] at h
    by_cases hpid : p = id
    · simp [hpid] at h
    · rw [if_neg hpid] at h
      obtain ⟨old, hold, rfl⟩ := Option.map_eq_some_iff.1 h
      simp only [unlinked]
      by_cases hq : place.parent = some p
      · rw [if_pos hq]
        refine nodup_splice ((hg.mem_children hold).2 (hid.trans hq)) (hg.children_nodup hold)
          (hg.children_nodup hp) fun x hx hx' => hpid ?_
        have h1 : g.parent? x = some id := (hg.mem_children hp).1 hx
        have h2 : g.parent? x = some p := (hg.mem_children hold).1 hx'
        exact Option.some.inj (h2.symm.trans h1)
      · rw [if_neg hq]
        exact hg.children_nodup hold
  · intro r h
    obtain ⟨hne, hlive, -⟩ := mem_roots_removed hg hp h
    exact (contains_removed r).2 ⟨hne, hlive⟩
  · intro r h
    obtain ⟨hne, -, hr | ⟨hr, htop⟩⟩ := mem_roots_removed hg hp h
    · rw [hpar, if_neg hne, hg.roots_top hr]
      simp
    · rw [hpar, if_neg hne, if_pos hr, htop]
  · simp only [Flow.removed, roots_erase, roots_relink]
    split_ifs
    · by_cases hin : id ∈ g.roots
      · apply nodup_splice hin hg.roots_nodup (hg.children_nodup hp)
        intro x hx hr
        have hc : g.parent? x = some id := (hg.mem_children hp).1 hx
        simp [hg.roots_top hr] at hc
      · rw [splice_of_notMem _ hin]
        exact hg.roots_nodup
    · exact hg.roots_nodup
  · -- the children of the removed node go on where it hung, so the parent's way up is needed too
    have hup : ∀ i, (g.removed id place).Rooted i ∧
        ∀ q, g.parent? i = some q → (g.removed id place).Rooted q := by
      refine hg.up_induction fun i ih => ⟨?_, fun q hq => (ih q hq).1⟩
      by_cases hi : i = id
      · exact .top (by rw [hpar, if_pos hi])
      · cases hpi : g.parent? i with
        | none => exact .top (by rw [hpar, if_neg hi, hpi]; simp)
        | some p =>
          by_cases hpid : p = id
          · cases hq : g.parent? id with
            | none => exact .top (by rw [hpar, if_neg hi, hpi, hpid, if_pos rfl, hq])
            | some q =>
              exact .under (by rw [hpar, if_neg hi, hpi, hpid, if_pos rfl, hq])
                ((ih p hpi).2 q (hpid ▸ hq))
          · exact .under (by rw [hpar, if_neg hi, hpi, if_neg (by simpa using hpid)])
              (ih p hpi).1
    exact fun i => (hup i).1

end Removed

/-! ## Joining -/

/-- How a place changes when one node is joined to another. -/
def fused (keep absorb : Nat) (node : FlowNode) (absorbed : Place) (i : Nat) (p : Place) : Place :=
  { node := if i = keep then node else p.node
    parent := if i ∈ absorbed.children then some keep else p.parent
    children :=
      (if absorbed.parent = some i then p.children.filter (· != absorb) else p.children) ++
        if i = keep then absorbed.children else [] }

/-- What is left when one node is joined to another. -/
def joined (g : Flow) (keep absorb : Nat) (node : FlowNode) (absorbed : Place) : Flow :=
  (g.relink (fused keep absorb node absorbed)
    fun l => if absorbed.parent = none then l.filter (· != absorb) else l).erase absorb

section Joined

variable {g : Flow} {keep absorb : Nat} {node : FlowNode} {kept absorbed : Place}

theorem mergeInto_eq (hg : g.IsForest) (hk : g.place? keep = some kept)
    (ha : g.place? absorb = some absorbed) (hne : keep ≠ absorb) :
    g.mergeInto keep absorb =
      .ok ((kept.node.merge? absorbed.node).map fun n => g.joined keep absorb n absorbed) := by
  have hpa : g.parent? absorb = absorbed.parent := parent?_of_place? ha
  have hparent : ∀ p, absorbed.parent = some p → g.contains p = true := fun p h =>
    hg.parent_live (hpa.trans h)
  unfold mergeInto
  rw [if_neg hne, place_eq hk, place_eq ha]
  simp only [bind, Except.bind]
  cases kept.node.merge? absorbed.node with
  | none => rfl
  | some n =>
    simp only [modifySiblings_eq hparent, Option.map_some, pure, Except.pure]
    rw [modify_eq (by simp [contains, place?_erase, hne, hk]), erase_relink, relink_relink]
    dsimp only
    rw [attachAll_eq]
    · simp only [erase_relink, relink_relink, joined]
      congr 3
      refine relink_congr (fun i p => ?_) rfl
      simp only [linked, fused, Option.some.injEq, eq_comm (a := keep)]
      split_ifs <;> simp
    · simp [contains, place?_erase, hne, hk]
    · intro c hc
      have hcne : c ≠ absorb := fun e =>
        hg.parent?_ne_self absorb ((hg.mem_children ha).1 (e ▸ hc))
      simpa [contains, place?_erase, hcne] using hg.child_live ha hc

theorem place?_joined (i : Nat) :
    (g.joined keep absorb node absorbed).place? i =
      if i = absorb then none else (g.place? i).map (fused keep absorb node absorbed i) := by
  simp [joined]

@[simp] theorem nextId_joined : (g.joined keep absorb node absorbed).nextId = g.nextId := by
  simp [joined]

theorem contains_joined (i : Nat) :
    (g.joined keep absorb node absorbed).contains i = true ↔ i ≠ absorb ∧ g.contains i = true := by
  unfold contains
  rw [place?_joined]
  split_ifs with h <;> simp [h]

theorem node?_joined (hk : g.contains keep = true) (i : Nat) :
    (g.joined keep absorb node absorbed).node? i =
      if i = absorb then none else if i = keep then some node else g.node? i := by
  unfold node?
  rw [place?_joined]
  by_cases hi : i = absorb
  · simp [hi]
  · rw [if_neg hi, if_neg hi, Option.map_map]
    by_cases hik : i = keep
    · obtain ⟨p, hp⟩ := contains_iff.1 hk
      simp [hik, hp, fused]
    · simp only [if_neg hik]
      congr 1
      funext p
      simp [fused, hik]

theorem parent?_joined (hg : g.IsForest) (ha : g.place? absorb = some absorbed) (i : Nat) :
    (g.joined keep absorb node absorbed).parent? i =
      if i = absorb then none else if g.parent? i = some absorb then some keep
      else g.parent? i := by
  rw [parent?, place?_joined]
  by_cases hi : i = absorb
  · simp [hi]
  · rw [if_neg hi, if_neg hi]
    have hc := hg.mem_children ha (c := i)
    cases hpi : g.place? i with
    | none =>
      have htop : g.parent? i = none := by simp [parent?, hpi]
      simp [htop]
    | some p =>
      rw [parent?_of_place? hpi] at hc ⊢
      simp only [Option.map_some, Option.bind_some, fused, hc]

/-- The children afterwards: those from before but for the node that is gone, and its own. -/
theorem mem_fused (hg : g.IsForest) (ha : g.place? absorb = some absorbed) {p c : Nat} {old : Place}
    (hold : g.place? p = some old) :
    c ∈ (fused keep absorb node absorbed p old).children ↔
      (g.parent? c = some p ∧ c ≠ absorb) ∨ (p = keep ∧ g.parent? c = some absorb) := by
  have hpa : g.parent? absorb = absorbed.parent := parent?_of_place? ha
  have h1 : c ∈ (if absorbed.parent = some p then old.children.filter (· != absorb)
      else old.children) ↔ g.parent? c = some p ∧ c ≠ absorb := by
    by_cases hq : absorbed.parent = some p
    · simp [hq, hg.mem_children hold]
    · rw [if_neg hq, hg.mem_children hold, ← hpa] at *
      exact ⟨fun h => ⟨h, fun e => hq (e ▸ h)⟩, fun h => h.1⟩
  have h2 : c ∈ (if p = keep then absorbed.children else []) ↔
      p = keep ∧ g.parent? c = some absorb := by
    by_cases hq : p = keep
    · simp [hq, hg.mem_children ha]
    · simp [hq]
  unfold fused
  rw [List.mem_append, h1, h2]

/-- Joining a node to one that does not hang under it. -/
theorem IsForest.joined (hg : g.IsForest) (hk : g.contains keep = true)
    (ha : g.place? absorb = some absorbed) (hout : ¬g.Within absorb keep) :
    (g.joined keep absorb node absorbed).IsForest := by
  have hpar : ∀ i, (g.joined keep absorb node absorbed).parent? i =
      if i = absorb then none else if g.parent? i = some absorb then some keep
      else g.parent? i := parent?_joined hg ha
  have hpa : g.parent? absorb = absorbed.parent := parent?_of_place? ha
  have hne : keep ≠ absorb := fun e => hout (e ▸ Relation.ReflTransGen.refl)
  have hself : g.parent? absorb ≠ some absorb := hg.parent?_ne_self absorb
  refine ⟨?_, ?_, ?_, ?_, ?_, ?_, ?_⟩
  · intro c p h
    rw [hpar] at h
    rw [contains_joined]
    split_ifs at h with h1 h2
    · exact Option.some.inj h ▸ ⟨hne, hk⟩
    · exact ⟨fun e => h2 (e ▸ h), hg.parent_live h⟩
  · intro p pl c h
    rw [place?_joined] at h
    by_cases hp : p = absorb
    · simp [hp] at h
    · rw [if_neg hp] at h
      obtain ⟨old, hold, rfl⟩ := Option.map_eq_some_iff.1 h
      rw [mem_fused hg ha hold, hpar]
      grind
  · intro p pl h
    rw [place?_joined] at h
    by_cases hp : p = absorb
    · simp [hp] at h
    · rw [if_neg hp] at h
      obtain ⟨old, hold, rfl⟩ := Option.map_eq_some_iff.1 h
      have h1 : (if absorbed.parent = some p then old.children.filter (· != absorb)
          else old.children).Nodup := by
        split_ifs
        · exact (hg.children_nodup hold).filter _
        · exact hg.children_nodup hold
      have h2 : (if p = keep then absorbed.children else []).Nodup := by
        split_ifs
        · exact hg.children_nodup ha
        · exact List.nodup_nil
      refine h1.append h2 fun x hx hx' => hp ?_
      have h3 : g.parent? x = some p := by
        apply (hg.mem_children hold).1
        split_ifs at hx
        · exact (List.mem_filter.1 hx).1
        · exact hx
      have h4 : g.parent? x = some absorb := by
        split_ifs at hx'
        · exact (hg.mem_children ha).1 hx'
        · simp at hx'
      exact Option.some.inj (h3.symm.trans h4)
  · intro r h
    rw [contains_joined]
    simp only [Flow.joined, roots_erase, roots_relink] at h
    split_ifs at h with hq
    · obtain ⟨hr, hra⟩ := List.mem_filter.1 h
      exact ⟨by simpa using hra, hg.roots_live hr⟩
    · exact ⟨fun e => hq (hpa ▸ hg.roots_top (e ▸ h)), hg.roots_live h⟩
  · intro r h
    have hr : r ∈ g.roots := by
      simp only [Flow.joined, roots_erase, roots_relink] at h
      split_ifs at h
      · exact (List.mem_filter.1 h).1
      · exact h
    rw [hpar, hg.roots_top hr]
    simp
  · simp only [Flow.joined, roots_erase, roots_relink]
    split_ifs
    · exact hg.roots_nodup.filter _
    · exact hg.roots_nodup
  · have hkeep : (g.joined keep absorb node absorbed).Rooted keep := by
      refine (hg.rooted keep).outside (fun i hi => ?_) hout
      have hia : i ≠ absorb := fun e => hi (e ▸ Relation.ReflTransGen.refl)
      have hic : g.parent? i ≠ some absorb := fun e => hi (.single e)
      rw [hpar, if_neg hia, if_neg hic]
    refine hg.up_induction fun i ih => ?_
    by_cases hi : i = absorb
    · exact .top (by rw [hpar, if_pos hi])
    · by_cases hpi : g.parent? i = some absorb
      · exact .under (by rw [hpar, if_neg hi, if_pos hpi]) hkeep
      · cases hq : g.parent? i with
        | none => exact .top (by rw [hpar, if_neg hi, if_neg hpi, hq])
        | some q => exact .under (by rw [hpar, if_neg hi, if_neg hpi, hq]) (ih q hq)

end Joined

/-! ## Lifting -/

/-- How a place changes when a node is lifted above its parent. -/
def turned (id parent : Nat) (place above : Place) (i : Nat) (p : Place) : Place :=
  { node := p.node
    parent :=
      if i = parent then some id
      else if i = id then above.parent
      else if i ∈ place.children then some parent
      else p.parent
    children :=
      if i = id then [parent]
      else if i = parent then p.children.filter (· != id) ++ place.children
      else if above.parent = some i then splice parent [id] p.children
      else p.children }

/-- What is left when a node is lifted above its parent. -/
def lifted (g : Flow) (id parent : Nat) (place above : Place) : Flow :=
  g.relink (turned id parent place above)
    fun l => if above.parent = none then splice parent [id] l else l

section Lifted

variable {g : Flow} {id parent : Nat} {place above : Place}

theorem swapWithParent_root (hp : g.place? id = some place) (htop : place.parent = none) :
    g.swapWithParent id = .ok g := by
  simp only [swapWithParent, place_eq hp, bind, Except.bind, htop]
  rfl

theorem swapWithParent_eq (hg : g.IsForest) (hp : g.place? id = some place)
    (hpar : place.parent = some parent) (ha : g.place? parent = some above) :
    g.swapWithParent id = .ok (g.lifted id parent place above) := by
  have hpid : g.parent? id = some parent := (parent?_of_place? hp).trans hpar
  have hpp : g.parent? parent = above.parent := parent?_of_place? ha
  have hlive : ∀ i ∈ place.children, g.contains i = true := fun i hi => hg.child_live hp hi
  have hup : ∀ p, above.parent = some p → g.contains p = true := fun p h =>
    hg.parent_live (hpp.trans h)
  have hself : above.parent ≠ some parent := hpp ▸ hg.parent?_ne_self parent
  have hidlive : g.contains id = true := contains_of_place? hp
  have hparlive : g.contains parent = true := contains_of_place? ha
  simp only [swapWithParent, place_eq hp, place_eq ha, bind, Except.bind, hpar,
    setParent_eq (some parent) hlive]
  rw [modify_eq (by simpa using hparlive)]
  dsimp only
  rw [modifySiblings_eq (by simpa using hup)]
  dsimp only
  rw [modify_eq (by simpa using hidlive)]
  dsimp only
  rw [modify_eq (by simpa using hparlive)]
  simp only [relink_relink, lifted]
  congr 1
  refine relink_congr (fun i p => ?_) rfl
  simp only [turned]
  by_cases h1 : i = parent
  · subst h1
    by_cases h2 : i = id
    · exact absurd (h2 ▸ hpid) (hg.parent?_ne_self id)
    · by_cases h3 : i ∈ place.children <;> simp [h2, h3, hself]
  · by_cases h2 : i = id
    · subst h2
      by_cases h3 : i ∈ place.children <;> by_cases h4 : above.parent = some i <;>
        simp [h1, h3, h4]
    · simp only [h1, h2, if_false]
      split_ifs <;> rfl

theorem place?_lifted (i : Nat) :
    (g.lifted id parent place above).place? i =
      (g.place? i).map (turned id parent place above i) := by
  simp [lifted]

@[simp] theorem nextId_lifted : (g.lifted id parent place above).nextId = g.nextId := by
  simp [lifted]

@[simp] theorem contains_lifted (i : Nat) :
    (g.lifted id parent place above).contains i = g.contains i := by
  simp [lifted]

@[simp] theorem node?_lifted (i : Nat) :
    (g.lifted id parent place above).node? i = g.node? i := by
  unfold node?
  rw [place?_lifted, Option.map_map]
  rfl

theorem parent?_lifted (hg : g.IsForest) (hp : g.place? id = some place)
    (ha : g.place? parent = some above) (i : Nat) :
    (g.lifted id parent place above).parent? i =
      if i = parent then some id
      else if i = id then g.parent? parent
      else if g.parent? i = some id then some parent
      else g.parent? i := by
  rw [parent?, place?_lifted, parent?_of_place? ha]
  have hc := hg.mem_children hp (c := i)
  cases hpi : g.place? i with
  | none =>
    have h1 : i ≠ parent := fun e => by simp [← e, hpi] at ha
    have h2 : i ≠ id := fun e => by simp [← e, hpi] at hp
    have htop : g.parent? i = none := by simp [parent?, hpi]
    simp [h1, h2, htop]
  | some p =>
    rw [parent?_of_place? hpi] at hc ⊢
    simp only [Option.map_some, Option.bind_some, turned, hc]

/-- The children afterwards. -/
theorem mem_turned (hg : g.IsForest) (hp : g.place? id = some place)
    (hpar : place.parent = some parent) (ha : g.place? parent = some above) {p c : Nat}
    {old : Place} (hold : g.place? p = some old) :
    c ∈ (turned id parent place above p old).children ↔
      (g.lifted id parent place above).parent? c = some p := by
  have hpid : g.parent? id = some parent := (parent?_of_place? hp).trans hpar
  have hpp : g.parent? parent = above.parent := parent?_of_place? ha
  have hnp : g.parent? parent ≠ some parent := hg.parent?_ne_self parent
  have hni : g.parent? id ≠ some id := hg.parent?_ne_self id
  have hback : g.parent? parent ≠ some id := fun h =>
    hg.not_under_self id (.tail (.single h) hpid)
  have hne : parent ≠ id := fun e => hni (e ▸ hpid)
  rw [parent?_lifted hg hp ha]
  simp only [turned]
  by_cases h1 : p = id
  · rw [if_pos h1, List.mem_singleton, h1]
    grind
  · by_cases h2 : p = parent
    · rw [if_neg h1, if_pos h2, List.mem_append, List.mem_filter, hg.mem_children hp,
        hg.mem_children hold]
      grind
    · by_cases h3 : above.parent = some p
      · have hin : parent ∈ old.children := (hg.mem_children hold).2 (hpp.trans h3)
        rw [if_neg h1, if_neg h2, if_pos h3, mem_splice hin (hg.children_nodup hold),
          List.mem_singleton, hg.mem_children hold]
        grind
      · rw [if_neg h1, if_neg h2, if_neg h3, hg.mem_children hold]
        grind

theorem mem_roots_lifted (hg : g.IsForest)
    (ha : g.place? parent = some above) {r : Nat}
    (h : r ∈ (g.lifted id parent place above).roots) :
    (r = id ∧ g.parent? parent = none) ∨ (r ∈ g.roots ∧ r ≠ parent) := by
  have hpp : g.parent? parent = above.parent := parent?_of_place? ha
  simp only [lifted, roots_relink] at h
  by_cases hq : above.parent = none
  · rw [if_pos hq] at h
    by_cases hin : parent ∈ g.roots
    · rcases (mem_splice hin hg.roots_nodup).1 h with h | h
      · exact Or.inl ⟨List.mem_singleton.1 h, hpp.trans hq⟩
      · exact Or.inr h
    · rw [splice_of_notMem _ hin] at h
      exact Or.inr ⟨h, fun e => hin (e ▸ h)⟩
  · rw [if_neg hq] at h
    exact Or.inr ⟨h, fun e => hq (hpp ▸ hg.roots_top (e ▸ h))⟩

/-- Lifting a node above its parent. -/
theorem IsForest.lifted (hg : g.IsForest) (hp : g.place? id = some place)
    (hpar : place.parent = some parent) (ha : g.place? parent = some above) :
    (g.lifted id parent place above).IsForest := by
  have hup := parent?_lifted hg hp ha
  have hpid : g.parent? id = some parent := (parent?_of_place? hp).trans hpar
  have hpp : g.parent? parent = above.parent := parent?_of_place? ha
  have hne : id ≠ parent := fun e => hg.parent?_ne_self parent (e ▸ hpid)
  refine ⟨?_, ?_, ?_, ?_, ?_, ?_, ?_⟩
  · intro c p h
    rw [hup] at h
    rw [contains_lifted]
    split_ifs at h
    · exact Option.some.inj h ▸ contains_of_place? hp
    · exact hg.parent_live h
    · exact Option.some.inj h ▸ contains_of_place? ha
    · exact hg.parent_live h
  · intro p pl c h
    rw [place?_lifted] at h
    obtain ⟨old, hold, rfl⟩ := Option.map_eq_some_iff.1 h
    exact mem_turned hg hp hpar ha hold
  · intro p pl h
    rw [place?_lifted] at h
    obtain ⟨old, hold, rfl⟩ := Option.map_eq_some_iff.1 h
    have hkids := hg.children_nodup hold
    simp only [turned]
    split_ifs with h1 h2 h3
    · exact List.nodup_singleton parent
    · refine (hkids.filter _).append (hg.children_nodup hp) fun x hx hx' => h1 ?_
      have h3 : g.parent? x = some p := (hg.mem_children hold).1 (List.mem_filter.1 hx).1
      exact Option.some.inj (h3.symm.trans ((hg.mem_children hp).1 hx'))
    · refine nodup_splice ((hg.mem_children hold).2 (hpp.trans h3)) hkids
        (List.nodup_singleton id) fun x hx hx' => h2 ?_
      rw [List.mem_singleton.1 hx] at hx'
      exact Option.some.inj (((hg.mem_children hold).1 hx').symm.trans hpid)
    · exact hkids
  · intro r h
    rw [contains_lifted]
    rcases mem_roots_lifted hg ha h with ⟨h, -⟩ | ⟨h, -⟩
    · exact h ▸ contains_of_place? hp
    · exact hg.roots_live h
  · intro r h
    rw [hup]
    rcases mem_roots_lifted hg ha h with ⟨rfl, htop⟩ | ⟨h, hr⟩
    · rw [if_neg hne, if_pos rfl, htop]
    · have htop : g.parent? r = none := hg.roots_top h
      have hri : r ≠ id := fun e => by simp [← e, htop] at hpid
      rw [if_neg hr, if_neg hri, htop]
      simp
  · simp only [Flow.lifted, roots_relink]
    split_ifs
    · by_cases hin : parent ∈ g.roots
      · apply nodup_splice hin hg.roots_nodup (List.nodup_singleton id)
        intro x hx hr
        rw [List.mem_singleton.1 hx] at hr
        simp [hg.roots_top hr] at hpid
      · rw [splice_of_notMem _ hin]
        exact hg.roots_nodup
    · exact hg.roots_nodup
  · have hout : ∀ i, ¬g.Within parent i → (g.lifted id parent place above).Rooted i := fun i =>
      (hg.rooted i).outside fun j hj => by
        have h1 : j ≠ parent := fun e => hj (e ▸ Relation.ReflTransGen.refl)
        have h2 : j ≠ id := fun e => hj (e ▸ Relation.ReflTransGen.single hpid)
        have h3 : g.parent? j ≠ some id := fun e =>
          hj (Relation.ReflTransGen.tail (.single hpid) e)
        rw [hup, if_neg h1, if_neg h2, if_neg h3]
    have hid : (g.lifted id parent place above).Rooted id := by
      cases hq : g.parent? parent with
      | none => exact .top (by rw [hup, if_neg hne, if_pos rfl, hq])
      | some q =>
        refine .under (by rw [hup, if_neg hne, if_pos rfl, hq]) (hout q fun hw => ?_)
        exact hg.not_under_self parent (Relation.TransGen.tail' hw hq)
    have hparent : (g.lifted id parent place above).Rooted parent :=
      .under (by rw [hup, if_pos rfl]) hid
    refine hg.up_induction fun i ih => ?_
    by_cases h1 : i = parent
    · exact h1 ▸ hparent
    · by_cases h2 : i = id
      · exact h2 ▸ hid
      · by_cases h3 : g.parent? i = some id
        · exact .under (by rw [hup, if_neg h1, if_neg h2, if_pos h3]) hparent
        · cases hq : g.parent? i with
          | none => exact .top (by rw [hup, if_neg h1, if_neg h2, if_neg h3, hq])
          | some q => exact .under (by rw [hup, if_neg h1, if_neg h2, if_neg h3, hq]) (ih q hq)

end Lifted

end ChartCompiler.Flow
