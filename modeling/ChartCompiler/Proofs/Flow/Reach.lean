import ChartCompiler.Proofs.Flow.Growth

/-!
# Reach of the roots

A node is within reach if it is a root or hangs under one; a copy that stands alone is not, nor is
what hangs under it. Joining asks for nothing but the kinds of the two nodes, so it may be tried on
nodes in any position. The node that goes leaves its children to the one that stays. When that one
hangs under it, the way up from there comes back to itself. When that one is out of reach, so are
the children.

Results:

* `reachable_of_parent`, `reachable_of_under`: a node is within reach as the nodes above it are.
* `under_joined`: what hung under the node that goes hangs under the one that stays.
* `IsForest.reachable_joined_outside`: nodes elsewhere are within reach as before.
* `not_reachable_joined`: a node that takes up one above it is out of reach.
* `IsForest.mergeInto_iff`: when joining two nodes leaves a forest that loses no node.
* `nestedBins_swallowed`: a node that takes up its parent, the only root.
-/

namespace ChartCompiler.Flow

/-- A node that is a root or hangs under one. -/
def Reachable (g : Flow) (i : Nat) : Prop := ∃ r ∈ g.roots, g.Within r i

variable {g : Flow}

theorem reachable_iff {i : Nat} :
    g.Reachable i ↔ i ∈ g.roots ∨ ∃ p, g.parent? i = some p ∧ g.Reachable p := by
  constructor
  · rintro ⟨r, hr, hw⟩
    rcases Relation.ReflTransGen.cases_tail hw with rfl | ⟨p, hrp, hp⟩
    · exact Or.inl hr
    · exact Or.inr ⟨p, hp, r, hr, hrp⟩
  · rintro (h | ⟨p, hp, r, hr, hw⟩)
    · exact ⟨i, h, .refl⟩
    · exact ⟨r, hr, hw.tail hp⟩

section RootsTop

variable (htop : ∀ r ∈ g.roots, g.parent? r = none)

include htop

theorem reachable_of_parent {c p : Nat} (h : g.parent? c = some p) :
    g.Reachable c ↔ g.Reachable p := by
  have hroot : c ∉ g.roots := fun hc => by simp [htop c hc] at h
  rw [reachable_iff, or_iff_right hroot]
  simp [h]

theorem reachable_of_under {a i : Nat} (h : g.Under a i) : g.Reachable i ↔ g.Reachable a := by
  induction h with
  | single h => exact reachable_of_parent htop h
  | tail _ h ih => exact (reachable_of_parent htop h).trans ih

/-- The way up from a node within reach ends at its root. -/
theorem Reachable.rooted {i : Nat} (h : g.Reachable i) : g.Rooted i := by
  obtain ⟨r, hr, hw⟩ := h
  induction hw with
  | refl => exact .top (htop r hr)
  | tail _ hp ih => exact .under hp ih

end RootsTop

/-! ## After joining -/

section Joined

variable {keep absorb : Nat} {node : FlowNode} {absorbed : Place}

theorem mem_roots_joined (hg : g.IsForest) (ha : g.place? absorb = some absorbed) {r : Nat} :
    r ∈ (g.joined keep absorb node absorbed).roots ↔ r ∈ g.roots ∧ r ≠ absorb := by
  have hpa : g.parent? absorb = absorbed.parent := parent?_of_place? ha
  simp only [joined, roots_erase, roots_relink]
  split_ifs with hq
  · simp
  · exact ⟨fun h => ⟨h, fun e => hq (hpa ▸ hg.roots_top (e ▸ h))⟩, fun h => h.1⟩

theorem roots_top_joined (hg : g.IsForest) (ha : g.place? absorb = some absorbed) :
    ∀ r ∈ (g.joined keep absorb node absorbed).roots,
      (g.joined keep absorb node absorbed).parent? r = none := by
  intro r hr
  rw [parent?_joined hg ha, hg.roots_top ((mem_roots_joined hg ha).1 hr).1]
  simp

/-- What hung under the node that goes hangs under the one that stays, itself included if it did. -/
theorem under_joined (hg : g.IsForest) (ha : g.place? absorb = some absorbed) {i : Nat}
    (h : g.Under absorb i) : (g.joined keep absorb node absorbed).Under keep i := by
  have hne : ∀ {j}, g.Under absorb j → j ≠ absorb := fun hj e => hg.not_under_self absorb (e ▸ hj)
  induction h with
  | @single i h =>
    refine .single ?_
    rw [Hangs, parent?_joined hg ha, if_neg (hne (.single h))]
    exact if_pos h
  | @tail p i hup h ih =>
    refine ih.tail ?_
    have hp : g.parent? i ≠ some absorb := fun e => hne hup (Option.some.inj (Eq.trans h.symm e))
    rw [Hangs, parent?_joined hg ha, if_neg (hne (hup.tail h)), if_neg hp]
    exact h

/-- A node outside what hung under the one that goes is within reach as before. -/
theorem IsForest.reachable_joined_outside (hg : g.IsForest)
    (ha : g.place? absorb = some absorbed) {i : Nat} (hi : ¬g.Within absorb i) :
    (g.joined keep absorb node absorbed).Reachable i ↔ g.Reachable i := by
  revert hi
  refine hg.up_induction (motive := fun i => ¬g.Within absorb i →
    ((g.joined keep absorb node absorbed).Reachable i ↔ g.Reachable i)) (fun i ih hi => ?_) i
  have hne : i ≠ absorb := fun e => hi (e ▸ .refl)
  have hpi : g.parent? i ≠ some absorb := fun e => hi (.single e)
  have hpar : (g.joined keep absorb node absorbed).parent? i = g.parent? i := by
    rw [parent?_joined hg ha, if_neg hne, if_neg hpi]
  rw [reachable_iff, reachable_iff (g := g), mem_roots_joined hg ha, hpar]
  refine or_congr (and_iff_left hne) (exists_congr fun p => and_congr_right fun hp => ?_)
  exact ih p hp fun hw => hi (hw.tail hp)

/-- A node that takes up one above it is under itself, out of every root's reach. -/
theorem not_reachable_joined (hg : g.IsForest) (ha : g.place? absorb = some absorbed)
    (h : g.Under absorb keep) : ¬(g.joined keep absorb node absorbed).Reachable keep := fun hr =>
  (hr.rooted (roots_top_joined hg ha)).not_under_self (under_joined hg ha h)

/-- Joining leaves a forest that loses no node iff the node that stays does not hang under the other
and, if it is to hold children that are within reach, is within reach itself. -/
theorem joined_iff (hg : g.IsForest) (hk : g.contains keep = true)
    (ha : g.place? absorb = some absorbed) (hne : keep ≠ absorb) :
    ((g.joined keep absorb node absorbed).IsForest ∧
        ∀ i, g.Reachable i → i ≠ absorb → (g.joined keep absorb node absorbed).Reachable i) ↔
      ¬g.Under absorb keep ∧
        (g.Reachable absorb → (∃ c, g.parent? c = some absorb) → g.Reachable keep) := by
  have htop : ∀ r ∈ (g.joined keep absorb node absorbed).roots,
      (g.joined keep absorb node absorbed).parent? r = none := roots_top_joined hg ha
  have hout : ¬g.Under absorb keep → ¬g.Within absorb keep := fun h hw =>
    (Relation.reflTransGen_iff_eq_or_transGen.1 hw).elim hne h
  constructor
  · rintro ⟨hforest, hreach⟩
    have hnot : ¬g.Under absorb keep := fun h => hforest.not_under_self keep (under_joined hg ha h)
    refine ⟨hnot, fun habsorb ⟨c, hc⟩ => ?_⟩
    have hcr : g.Reachable c := (reachable_of_parent (fun _ => hg.roots_top) hc).2 habsorb
    have hca : c ≠ absorb := fun e => hg.parent?_ne_self absorb (e ▸ hc)
    rw [← hg.reachable_joined_outside ha (hout hnot)]
    exact (reachable_of_under htop (under_joined hg ha (.single hc))).1 (hreach c hcr hca)
  · rintro ⟨hnot, hkeep⟩
    refine ⟨hg.joined hk ha (hout hnot), fun i hi hia => ?_⟩
    by_cases hw : g.Within absorb i
    · have hu : g.Under absorb i := (Relation.reflTransGen_iff_eq_or_transGen.1 hw).resolve_left hia
      have habsorb : g.Reachable absorb := (reachable_of_under (fun _ => hg.roots_top) hu).1 hi
      obtain ⟨c, hc, -⟩ := Relation.TransGen.head'_iff.1 hu
      rw [reachable_of_under htop (under_joined hg ha hu),
        hg.reachable_joined_outside ha (hout hnot)]
      exact hkeep habsorb ⟨c, hc⟩
    · exact (hg.reachable_joined_outside ha hw).2 hi

end Joined

/-- Two nodes of a forest are joined exactly if they are not the same and their kinds join, and else
the graph stays as it is. Joining takes away one node and no other. It leaves a forest in which all
nodes are within reach that were exactly if the node that stays does not hang under the other, and
is within reach if the other was and has children. -/
theorem IsForest.mergeInto_iff (hg : g.IsForest) {keep absorb : Nat} (hk : g.contains keep = true)
    (ha : g.contains absorb = true) :
    ∃ r, g.mergeInto keep absorb = .ok r ∧
      (r.isSome = true ↔ keep ≠ absorb ∧
        ∃ n m, g.node? keep = some n ∧ g.node? absorb = some m ∧ n.canMerge m = true) ∧
      (r = none → (Edit.mergeInto keep absorb).run g = .ok g) ∧
      ∀ h, r = some h →
        (∀ i, h.contains i = true ↔ i ≠ absorb ∧ g.contains i = true) ∧
        ((h.IsForest ∧ ∀ i, g.Reachable i → i ≠ absorb → h.Reachable i) ↔
          ¬g.Under absorb keep ∧
            (g.Reachable absorb → (∃ c, g.parent? c = some absorb) → g.Reachable keep)) := by
  by_cases hne : keep = absorb
  · have hrun : g.mergeInto keep absorb = .ok none := by rw [Flow.mergeInto, if_pos hne]
    exact ⟨none, hrun, by simp [hne], fun _ => by simp [Edit.run, hrun], by simp⟩
  · obtain ⟨kept, hkept⟩ := contains_iff.1 hk
    obtain ⟨absorbed, habsorbed⟩ := contains_iff.1 ha
    have hrun := mergeInto_eq hg hkept habsorbed hne
    refine ⟨_, hrun, ?_, fun hnone => by simp [Edit.run, hrun, hnone], fun h hh => ?_⟩
    · simp [hne, node?_of_place? hkept, node?_of_place? habsorbed, FlowNode.canMerge]
    · obtain ⟨node, -, rfl⟩ := Option.map_eq_some_iff.1 hh
      exact ⟨contains_joined, joined_iff hg hk habsorbed hne⟩

/-- A binning below another, and a filter below both. -/
def nestedBins : Flow :=
  ⟨#[some ⟨.bin ⟨{}⟩, none, [1]⟩, some ⟨.bin ⟨{}⟩, some 0, [2]⟩,
    some ⟨.filter (.ofExpr "datum.a"), some 1, []⟩], [0]⟩

theorem nestedBins_isForest : nestedBins.IsForest :=
  Growth.isForest_chain (.bin ⟨{}⟩) [.bin ⟨{}⟩, .filter (.ofExpr "datum.a")] rfl

/-- The filter stays within reach when the upper binning takes up the lower one. -/
theorem nestedBins_joined :
    ∃ h, nestedBins.mergeInto 0 1 = .ok (some h) ∧ h.contains 1 = false ∧ h.IsForest ∧
      h.Reachable 2 := by
  have hupper : nestedBins.contains 0 = true := rfl
  have hlower : nestedBins.contains 1 = true := rfl
  obtain ⟨r, hrun, hsome, -, hjoined⟩ := nestedBins_isForest.mergeInto_iff hupper hlower
  obtain ⟨h, rfl⟩ := Option.isSome_iff_exists.1
    (hsome.2 ⟨by decide, _, _, rfl, rfl, rfl⟩)
  obtain ⟨hcontains, hiff⟩ := hjoined h rfl
  have hroot : nestedBins.Reachable 0 := ⟨0, by decide, .refl⟩
  have hnot : ¬nestedBins.Under 1 0 := fun hu => by
    obtain ⟨p, -, hp⟩ := Relation.TransGen.tail'_iff.1 hu
    cases hp
  obtain ⟨hforest, hreach⟩ := hiff.2 ⟨hnot, fun _ _ => hroot⟩
  have hmid : nestedBins.Hangs 0 1 := rfl
  have hlow : nestedBins.Hangs 1 2 := rfl
  refine ⟨h, hrun, ?_, hforest, hreach 2 ⟨0, by decide, .tail (.single hmid) hlow⟩ (by decide)⟩
  exact Bool.eq_false_iff.2 fun hc => ((hcontains 1).1 hc).1 rfl

/-- When the lower binning takes up the upper one, it is its own parent, and no root is left. -/
theorem nestedBins_swallowed :
    nestedBins.IsForest ∧ nestedBins.Reachable 1 ∧ nestedBins.Reachable 2 ∧
      ∃ h, nestedBins.mergeInto 1 0 = .ok (some h) ∧ h.parent? 1 = some 1 ∧ ¬h.IsForest ∧
        ¬h.Reachable 1 ∧ ¬h.Reachable 2 := by
  have hmid : nestedBins.Hangs 0 1 := rfl
  have hlow : nestedBins.Hangs 1 2 := rfl
  refine ⟨nestedBins_isForest, ⟨0, by decide, .single hmid⟩,
    ⟨0, by decide, .tail (.single hmid) hlow⟩, _, rfl, rfl, fun hf => hf.parent?_ne_self 1 rfl,
    ?_, ?_⟩
  · rintro ⟨r, hr, -⟩
    cases hr
  · rintro ⟨r, hr, -⟩
    cases hr

end ChartCompiler.Flow
