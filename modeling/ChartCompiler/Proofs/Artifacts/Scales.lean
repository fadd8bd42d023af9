import ChartCompiler.Proofs.Artifacts.References
import ChartCompiler.Proofs.View.Placement
import Mathlib.Data.List.Induction

/-!
# Shared scales

The scales of units are joined by their names. A name tells the channel, and the view that owns the
scales of the unit, as long as no two views have the same name. So joining brings together what is
shown along one channel in views that only layers connect, and nothing else.

Results:

* `Scale.exists_joined`: what is joined by names that tell keys apart.
* `ViewTree.owner_eq_iff`: two views have one owner exactly if only layers are between them.
* `ChartDocument.compile_scales_shared`: the scales of a chart that names no view.
-/

namespace ChartCompiler

/-! ## Joining -/

namespace Scale

variable {κ : Type} [DecidableEq κ] {name : κ → String}

/-- What a scale bears that is joined from those of one key: their name, and the first signal that
drives the domain of one of them. -/
structure Joins (name : κ → String) (sources : List (κ × Scale)) (k : κ) (s : Scale) : Prop where
  name : s.name = name k
  domainRaw : s.domainRaw = sources.findSome? fun e => if e.1 = k then e.2.domainRaw else none

variable {sources : List (κ × Scale)} {keys : List κ} {k : κ} {s : Scale}

/-- A scale of another key changes nothing. -/
theorem Joins.skip {j : κ} {old : Scale} (h : Joins name sources j old) (hne : j ≠ k) :
    Joins name (sources ++ [(k, s)]) j old where
  name := h.name
  domainRaw := by simp [h.domainRaw, List.findSome?_append, Ne.symm hne]

theorem forall₂_skip {l : List Scale} (h : List.Forall₂ (Joins name sources) keys l)
    (hk : k ∉ keys) : List.Forall₂ (Joins name (sources ++ [(k, s)])) keys l := by
  rw [List.forall₂_iff_zip] at h ⊢
  exact ⟨h.1, fun hmem => (h.2 hmem).skip fun heq => hk (heq ▸ (List.of_mem_zip hmem).1)⟩

/-- Joining one more scale: it goes into the one of its key, or becomes the first of it. -/
theorem forall₂_join {l : List Scale} (h : List.Forall₂ (Joins name sources) keys l)
    (hname : s.name = name k) (hinj : ∀ j ∈ keys, name j = name k → j = k) (hnodup : keys.Nodup)
    (hnew : k ∉ keys → k ∉ sources.map Prod.fst) :
    List.Forall₂ (Joins name (sources ++ [(k, s)])) (if k ∈ keys then keys else keys ++ [k])
      (s.join l) := by
  induction h with
  | nil =>
    have hnone : sources.findSome? (fun e => if e.1 = k then e.2.domainRaw else none) = none := by
      refine List.findSome?_eq_none_iff.2 fun e he => if_neg fun heq => ?_
      exact hnew List.not_mem_nil (heq ▸ List.mem_map_of_mem he)
    rw [if_neg List.not_mem_nil]
    exact .cons ⟨hname, by simp [List.findSome?_append, hnone]⟩ .nil
  | @cons j old rest l hold hrest ih =>
    obtain ⟨hj, hrestnodup⟩ := List.nodup_cons.1 hnodup
    unfold Scale.join
    by_cases hk : j = k
    · subst hk
      rw [if_pos (hold.name.trans hname.symm), if_pos List.mem_cons_self]
      refine .cons ⟨hold.name, ?_⟩ (forall₂_skip hrest hj)
      simp [List.findSome?_append, hold.domainRaw]
    · have hnames : ¬old.name = s.name := fun heq =>
        hk (hinj j List.mem_cons_self (hold.name.symm.trans (heq.trans hname)))
      have htail := ih (fun i hi => hinj i (List.mem_cons_of_mem _ hi)) hrestnodup
        fun hmem => hnew (List.not_mem_cons_of_ne_of_not_mem (Ne.symm hk) hmem)
      rw [if_neg hnames]
      by_cases hmem : k ∈ rest
      · rw [if_pos hmem] at htail
        rw [if_pos (List.mem_cons_of_mem _ hmem)]
        exact .cons (hold.skip hk) htail
      · rw [if_neg hmem] at htail
        rw [if_neg (List.not_mem_cons_of_ne_of_not_mem (Ne.symm hk) hmem)]
        exact .cons (hold.skip hk) htail

/-- Scales that are joined by names that tell keys apart: one for each key that there is. -/
theorem exists_joined (sources : List (κ × Scale)) (hname : ∀ e ∈ sources, e.2.name = name e.1)
    (hinj : ∀ e ∈ sources, ∀ e' ∈ sources, name e.1 = name e'.1 → e.1 = e'.1) :
    ∃ keys : List κ, keys.Nodup ∧ (∀ k, k ∈ keys ↔ k ∈ sources.map Prod.fst) ∧
      List.Forall₂ (Joins name sources) keys
        ((sources.map Prod.snd).foldl (fun l s => s.join l) []) := by
  induction sources using List.reverseRecOn with
  | nil => exact ⟨[], List.nodup_nil, fun _ => Iff.rfl, .nil⟩
  | append_singleton sources e ih =>
    obtain ⟨k, s⟩ := e
    have hold : ∀ {e}, e ∈ sources → e ∈ sources ++ [(k, s)] := List.mem_append_left _
    have hlast : (k, s) ∈ sources ++ [(k, s)] := by simp
    obtain ⟨keys, hnodup, hmem, hall⟩ := ih (fun e he => hname e (hold he))
      fun e he e' he' => hinj e (hold he) e' (hold he')
    have hstep := forall₂_join hall (hname _ hlast) (fun j hj heq => by
      obtain ⟨e, he, rfl⟩ := List.mem_map.1 ((hmem j).1 hj)
      exact hinj e (hold he) _ hlast heq) hnodup (mt (hmem k).2)
    rw [List.map_append, List.map_append, List.foldl_append]
    refine ⟨_, ?_, fun j => ?_, hstep⟩
    · split
      · exact hnodup
      · next hk => exact List.concat_eq_append ▸ hnodup.concat hk
    · rw [List.mem_append, ← hmem j]
      split
      · next hk => simp +contextual [hk]
      · simp

end Scale

theorem ChannelMap.findSome?_toList {α β : Type} (m : ChannelMap α) (c : Channel)
    (f : α → Option β) :
    (m.toList.findSome? fun e => if e.1 = c then f e.2 else none) = (m.get? c).bind f := by
  have hlookup : ∀ {entries : List (Channel × α)}, (entries.map Prod.fst).Nodup →
      (entries.findSome? fun e => if e.1 = c then f e.2 else none) =
        (entries.lookup c).bind f := by
    intro entries
    induction entries with
    | nil => exact fun _ => rfl
    | cons e rest ih =>
      intro hkeys
      obtain ⟨hnew, hrest⟩ := List.nodup_cons.1 hkeys
      rw [List.findSome?_cons, ih hrest]
      by_cases hc : e.1 = c
      · have hnone : rest.lookup c = none := List.lookup_eq_none_iff.2 fun e' he' =>
          bne_iff_ne.2 fun heq => hnew (List.mem_map.2 ⟨e', he', heq.symm.trans hc.symm⟩)
        rw [if_pos hc, hnone, ← hc, List.lookup_cons_self]
        cases he : f e.2 <;> simp [he]
      · rw [if_neg hc, List.lookup_cons, beq_false_of_ne (Ne.symm hc)]
  rw [hlookup m.nodup_keys_toList, m.lookup_toList]

theorem Channel.isName_name (c : Channel) : Text.IsName c.name := by cases c <;> decide

theorem Channel.underscore_not_mem_name (c : Channel) : '_' ∉ c.name.toList := by
  cases c <;> decide

namespace ViewTree

variable {t : ViewTree}

/-! ## Owners -/

/-- Two views that only layers are between. -/
def Layered (t : ViewTree) : Nat → Nat → Prop :=
  Relation.EqvGen fun id p => t.parent? id = some p ∧ (t.view? p).any View.isLayer = true

theorem WellFormed.layered_owner (ht : t.WellFormed) (id : Nat) : t.Layered id (t.owner id) := by
  induction id using Nat.strongRecOn with
  | ind id ih =>
    rw [ht.owner_eq id]
    cases hp : t.parent? id with
    | none => exact .refl id
    | some p =>
      by_cases hlayer : (t.view? p).any View.isLayer = true
      · simp only [hlayer, if_true]
        exact .trans _ _ _ (.rel _ _ ⟨hp, hlayer⟩) (ih p (ht.parent_lt hp))
      · simp only [hlayer]
        exact .refl id

/-- Two views have one owner exactly if only layers are between them. -/
theorem WellFormed.owner_eq_iff (ht : t.WellFormed) {i j : Nat} :
    t.owner i = t.owner j ↔ t.Layered i j := by
  constructor
  · intro h
    exact .trans _ _ _ (ht.layered_owner i) (h ▸ .symm _ _ (ht.layered_owner j))
  · intro h
    induction h with
    | rel id p h => rw [ht.owner_eq id, h.1]; simp only [h.2, if_true]
    | refl => rfl
    | symm _ _ _ ih => exact ih.symm
    | trans _ _ _ _ _ ih ih' => exact ih.trans ih'

/-! ## Scales of units -/

/-- The units of an owner, in document order. -/
def unitsOf (t : ViewTree) (owner : Nat) : List UnitAt :=
  (t.unitsAt root).filter fun u => t.owner u.id = owner

/-- The scales of all units, each with its owner and its channel. -/
def sharedScales (t : ViewTree) : List ((Nat × Channel) × Scale) :=
  (t.unitsAt root).flatMap fun u => u.unit.scales.toList.map fun e => ((t.owner u.id, e.1), e.2)

/-- The name of a scale of an owner. -/
def sharedName (t : ViewTree) (e : Nat × Channel) : String := t.nameOf e.1 e.2.name

theorem map_snd_sharedScales (t : ViewTree) : t.sharedScales.map Prod.snd = t.unitScales := by
  simp only [sharedScales, unitScales, List.map_flatMap, List.map_map, ChannelMap.values]
  rfl

theorem mem_sharedScales {e : (Nat × Channel) × Scale} :
    e ∈ t.sharedScales ↔
      ∃ u ∈ t.unitsAt root, t.owner u.id = e.1.1 ∧ u.scale? e.1.2 = some e.2 := by
  obtain ⟨⟨o, c⟩, s⟩ := e
  simp only [sharedScales, List.mem_flatMap, List.mem_map, Prod.mk.injEq, UnitAt.scale?]
  constructor
  · rintro ⟨u, hu, ⟨d, s'⟩, hmem, ⟨rfl, rfl⟩, rfl⟩
    exact ⟨u, hu, rfl, ChannelMap.mem_toList.1 hmem⟩
  · rintro ⟨u, hu, rfl, hs⟩
    exact ⟨u, hu, (c, s), ChannelMap.mem_toList.2 hs, ⟨rfl, rfl⟩, rfl⟩

theorem findSome?_flatMap {α β γ : Type} {f : β → Option γ} {g : α → List β} {p : α → Bool}
    {first : α → Option γ} (h : ∀ a, (g a).findSome? f = if p a then first a else none)
    (l : List α) : (l.flatMap g).findSome? f = (l.filter p).findSome? first := by
  induction l with
  | nil => rfl
  | cons a rest ih =>
    rw [List.flatMap_cons, List.findSome?_append, h, ih, List.filter_cons]
    split
    · rw [List.findSome?_cons]
      cases first a <;> rfl
    · rfl

/-- The first signal that drives the domain of a scale of an owner. -/
theorem findSome?_sharedScales (t : ViewTree) (o : Nat) (c : Channel) :
    (t.sharedScales.findSome? fun e => if e.1 = (o, c) then e.2.domainRaw else none) =
      (t.unitsOf o).findSome? fun u => (u.scale? c).bind Scale.domainRaw := by
  refine findSome?_flatMap (fun u => ?_) _
  rw [List.findSome?_map, UnitAt.scale?, ← ChannelMap.findSome?_toList]
  by_cases ho : t.owner u.id = o <;> simp [ho, Function.comp_def]

/-- Whether some unit of an owner shows a field on a scale along a channel. -/
def Encodes (t : ViewTree) (e : Nat × Channel) : Prop :=
  ∃ u ∈ t.unitsOf e.1, u.unit.showsOnScale e.2 = true

section

variable {chart : ChartSpec} {config : Config} {u : UnitAt} {c : Channel}

theorem map_name_scale? (h : (ofChart chart config).outcome = .ok t) (hu : u ∈ t.unitsAt root) :
    (u.scale? c).map Scale.name =
      if u.unit.showsOnScale c then some (t.sharedName (t.owner u.id, c)) else none :=
  ofChart_scaled h (mem_unitsAt hu).2.2 c

theorem encodes_iff (h : (ofChart chart config).outcome = .ok t) (e : Nat × Channel) :
    t.Encodes e ↔ e ∈ t.sharedScales.map Prod.fst := by
  simp only [Encodes, unitsOf, List.mem_filter, decide_eq_true_eq, List.mem_map, mem_sharedScales]
  constructor
  · rintro ⟨u, ⟨hu, howner⟩, hshows⟩
    have hname := map_name_scale? (c := e.2) h hu
    rw [if_pos hshows] at hname
    obtain ⟨s, hs, -⟩ := Option.map_eq_some_iff.1 hname
    exact ⟨(e, s), ⟨u, hu, howner, hs⟩, rfl⟩
  · rintro ⟨⟨⟨o, c⟩, s⟩, ⟨u, hu, howner, hs⟩, rfl⟩
    have hname := map_name_scale? (c := c) h hu
    rw [hs] at hname
    refine ⟨u, ⟨hu, howner⟩, by_contra fun hshows => ?_⟩
    rw [if_neg hshows] at hname
    cases hname

theorem name_of_mem_sharedScales (h : (ofChart chart config).outcome = .ok t)
    {e : (Nat × Channel) × Scale} (he : e ∈ t.sharedScales) : e.2.name = t.sharedName e.1 := by
  obtain ⟨u, hu, howner, hs⟩ := mem_sharedScales.1 he
  have hname := map_name_scale? (c := e.1.2) h hu
  rw [hs, Option.map_some, howner] at hname
  split at hname
  · exact Option.some.inj hname
  · cases hname

end

/-- Owners that are named differently have scales of different names. -/
theorem Placed.sharedName_inj (ht : t.WellFormed) (hw : t.Wired) (hp : t.Placed)
    {o o' : Nat} {c c' : Channel} (ho : o < t.size) (ho' : o' < t.size) :
    t.sharedName (o, c) = t.sharedName (o', c') ↔ o = o' ∧ c = c' := by
  rw [sharedName, sharedName, nameOf_eq, nameOf_eq,
    Text.nameWithin_inj (isName_viewName hw o) (isName_viewName hw o') (Channel.isName_name c)
      (Channel.isName_name c') (Channel.underscore_not_mem_name c)
      (Channel.underscore_not_mem_name c')]
  refine and_congr ⟨hp.viewName_inj ht hw ho ho', congrArg t.viewName⟩ ⟨fun h => ?_, congrArg _⟩
  have hfound := congrArg Channel.ofName? h
  rw [Channel.ofName?_name, Channel.ofName?_name] at hfound
  exact Option.some.inj hfound

theorem WellFormed.owner_lt (ht : t.WellFormed) {u : UnitAt} (hu : u ∈ t.unitsAt root) :
    t.owner u.id < t.size :=
  Nat.lt_of_le_of_lt (ht.owner_le u.id) (lt_size_of_view? (mem_unitsAt hu).2.1)

end ViewTree

/-! ## Charts -/

/-- When a chart compiles that names no view, its views have different names. The scales of two
units have one name exactly if they are on one channel and only layers are between the units. So
the output has one scale for every channel that some unit of an owner shows a field on; if some unit
of the owner has the domain driven, then by the signal that comes first in document order. -/
theorem ChartDocument.compile_scales_shared {d : ChartDocument} {a : Artifacts}
    (hnames : d.chart.Unnamed) (h : d.compile.outcome = .ok a) :
    ∃ t, (ViewTree.ofChart d.chart d.config).outcome = .ok t ∧
      (t.views.toList.map View.name).Nodup ∧
      (∀ i j, t.owner i = t.owner j ↔ t.Layered i j) ∧
      (∀ u ∈ t.unitsAt ViewTree.root, ∀ u' ∈ t.unitsAt ViewTree.root, ∀ c c' s s',
        u.scale? c = some s → u'.scale? c' = some s' →
          (s.name = s'.name ↔ c = c' ∧ t.owner u.id = t.owner u'.id)) ∧
      ∃ keys : List (Nat × Channel), keys.Nodup ∧ (∀ e, e ∈ keys ↔ t.Encodes e) ∧
        List.Forall₂ (fun e s => s.name = t.sharedName e ∧
          s.domainRaw = (t.unitsOf e.1).findSome? fun u => (u.scale? e.2).bind Scale.domainRaw)
          keys a.scales := by
  obtain ⟨t, ht, hscales, -, -⟩ := ChartDocument.compile_outcome h
  have hwf := ViewTree.ofChart_wellFormed ht
  have hwired := ViewTree.ofChart_wired ht
  have hplaced := ViewTree.ofChart_placed hnames ht
  have hshared : ∀ {u c s}, u ∈ t.unitsAt ViewTree.root → u.scale? c = some s →
      ((t.owner u.id, c), s) ∈ t.sharedScales := fun hu hs =>
    ViewTree.mem_sharedScales.2 ⟨_, hu, rfl, hs⟩
  have howner : ∀ e ∈ t.sharedScales, e.1.1 < t.size := by
    intro e he
    obtain ⟨u, hu, ho, -⟩ := ViewTree.mem_sharedScales.1 he
    exact ho ▸ hwf.owner_lt hu
  refine ⟨t, ht, hplaced.nodup_names hwf hwired, fun i j => hwf.owner_eq_iff, ?_, ?_⟩
  · intro u hu u' hu' c c' s s' hs hs'
    rw [ViewTree.name_of_mem_sharedScales ht (hshared hu hs),
      ViewTree.name_of_mem_sharedScales ht (hshared hu' hs'),
      hplaced.sharedName_inj hwf hwired (hwf.owner_lt hu) (hwf.owner_lt hu'), and_comm]
  · have hname : ∀ e ∈ t.sharedScales, e.2.name = t.sharedName e.1 := fun e he =>
      ViewTree.name_of_mem_sharedScales ht he
    obtain ⟨keys, hnodup, hmem, hall⟩ := Scale.exists_joined t.sharedScales hname
      fun e he e' he' heq => by
        obtain ⟨ho, hc⟩ := (hplaced.sharedName_inj hwf hwired (howner e he) (howner e' he')).1 heq
        exact Prod.ext ho hc
    rw [ViewTree.map_snd_sharedScales] at hall
    refine ⟨keys, hnodup, fun e => (hmem e).trans (ViewTree.encodes_iff ht e).symm, ?_⟩
    rw [hscales]
    exact hall.imp fun e s hs =>
      ⟨hs.name, hs.domainRaw.trans (ViewTree.findSome?_sharedScales t e.1 e.2)⟩

/-- Two views over each other, beside a third one like them. -/
def panels : ChartDocument :=
  ⟨.concat ⟨none, none, []⟩
    [.layer ⟨none, none, []⟩ .unset {} [pannedColor, pannedColor], pannedColor], .standard⟩

/-- Three views with two scales each, of which the first two share theirs. -/
theorem panels_shared :
    ∃ (a : Artifacts) (t : ViewTree) (keys : List (Nat × Channel)),
      panels.compile.outcome = .ok a ∧ (t.views.toList.map View.name).Nodup ∧
      a.scales.map Scale.name = ["concat_0_x", "concat_0_color", "concat_1_x", "concat_1_color"] ∧
      keys.Nodup ∧ keys.length = 4 ∧ ∀ e ∈ keys, t.Encodes e := by
  obtain ⟨a, ha, hscales⟩ : ∃ a, panels.compile.outcome = .ok a ∧
      a.scales.map Scale.name =
        ["concat_0_x", "concat_0_color", "concat_1_x", "concat_1_color"] :=
    exists_ok_of_toOption (by decide +kernel)
  obtain ⟨t, -, hviews, -, -, keys, hnodup, hmem, hall⟩ :=
    ChartDocument.compile_scales_shared (by decide) ha
  refine ⟨a, t, keys, ha, hviews, hscales, hnodup, ?_, fun e => (hmem e).1⟩
  rw [hall.length_eq, ← List.length_map Scale.name, hscales]
  rfl

end ChartCompiler
