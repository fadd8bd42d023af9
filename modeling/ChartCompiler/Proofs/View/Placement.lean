import ChartCompiler.Proofs.View.Scaled

/-!
# Placement

Every view of a chart comes into the tree as the root, or behind the other children of a view that
is there. If it has no name of its own, its name tells its place: that of the view it stands in,
then what this view does with its children, then how many came before. So views without names of
their own are named differently.

Results:

* `children_push`: the children of the views when a view is added.
* `ofChart_enters`: what every view keeps that is added so holds of the tree of a chart.
* `ofChart_placed`: the names in the tree of a chart that gives none.
* `Placed.viewName_inj`, `Placed.nodup_names`: two views never have the same.
* `Placed.notMem_viewName`: letters that no name has.
-/

namespace ChartCompiler

namespace ChartSpec

mutual

/-- What the views of a chart start with, in document order. -/
def heads : ChartSpec → List ViewHead
  | .unit head _ _ => [head]
  | .layer head _ _ children => head :: headsOfAll children
  | .concat head children => head :: headsOfAll children

/-- What the views of several charts start with. -/
def headsOfAll : List ChartSpec → List ViewHead
  | [] => []
  | child :: rest => child.heads ++ headsOfAll rest

end

theorem head_mem_heads (s : ChartSpec) : s.head ∈ s.heads := by
  cases s <;> simp [heads, head]

/-- Whether no view of a chart has a name of its own. -/
def Unnamed (s : ChartSpec) : Prop := ∀ head ∈ s.heads, head.name = none

instance (s : ChartSpec) : Decidable s.Unnamed :=
  inferInstanceAs (Decidable (∀ head ∈ s.heads, head.name = none))

end ChartSpec

namespace ViewTree

variable {t : ViewTree}

/-! ## Adding views -/

theorem parent?_push (t : ViewTree) (v : View) (id : Nat) :
    (t.push v).parent? id = if id = t.size then v.parent else t.parent? id := by
  unfold ViewTree.parent?
  rw [view?_push]
  split <;> rfl

/-- A view is added behind the other children of the view that it stands in. -/
theorem children_push (t : ViewTree) (v : View) (q : Nat) :
    (t.push v).children q = t.children q ++ if v.parent = some q then [t.size] else [] := by
  have hold : ∀ c ∈ List.range t.size,
      ((t.push v).parent? c == some q) = (t.parent? c == some q) := by
    intro c hc
    rw [parent?_push, if_neg (Nat.ne_of_lt (List.mem_range.1 hc))]
  have hnew : (t.push v).parent? t.size = v.parent := by rw [parent?_push, if_pos rfl]
  rw [children, size_push, List.range_succ, List.filter_append, List.filter_congr hold, children,
    List.filter_singleton, hnew, Bool.cond_eq_ite]
  simp only [beq_iff_eq]

/-- The last view has no children yet. -/
theorem WellFormed.children_size (ht : t.WellFormed) : t.children t.size = [] := by
  refine List.eq_nil_iff_forall_not_mem.2 fun c hc => ?_
  have hparent := mem_children.1 hc
  exact Nat.lt_asymm (ht.parent_lt hparent) (lt_size_of_parent? hparent)

/-- What a view does with its children. -/
def roleOf (t : ViewTree) (id : Nat) : Role :=
  if (t.view? id).any View.isConcat then .concat else .layer

/-- The name of a view that is added: its own, else one from its place. -/
def givenName (t : ViewTree) (parent : Option Nat) (own : Option String) : String :=
  match parent with
  | some p => t.childName p (t.roleOf p) (t.children p).length own
  | none => (own.map Text.identifier).getD ""

/-- How a view comes into a tree: under the name that it is given, with the data that it asks for.
A unit has its scales. -/
structure Enters (t : ViewTree) (head : ViewHead) (v : View) : Prop where
  admits : t.Admits v.parent
  name : v.name = t.givenName v.parent head.name
  data : v.data = head.data
  scaled : ∀ u, v.unit? = some u → u.Scaled ((t.push v).scaleName t.size)

/-- What every view keeps that comes into a tree. -/
def KeptByEntering (heads : List ViewHead) (P : ViewTree → Prop) : Prop :=
  ∀ {t head v}, t.WellFormed → head ∈ heads → t.Enters head v → P t → P (t.push v)

/-- A larger tree, with one more child of a view, and children of that one. -/
structure Grown (P : ViewTree → Prop) (t t' : ViewTree) (parent : Option Nat) : Prop where
  wellFormed : t'.WellFormed
  ext : t.Extends t'
  children : ∀ q < t.size, t'.children q = t.children q ++ if parent = some q then [t.size] else []
  keeps : P t'

/-- A larger tree, with more children of one view. -/
structure Filled (P : ViewTree → Prop) (t t' : ViewTree) (parent : Nat) : Prop where
  wellFormed : t'.WellFormed
  ext : t.Extends t'
  children : ∀ q < t.size, q ≠ parent → t'.children q = t.children q
  keeps : P t'

section

variable {P : ViewTree → Prop} {t' t'' : ViewTree}

/-- A view comes in, and then its children. -/
theorem Grown.filled {parent : Option Nat} (hgrown : Grown P t t' parent)
    (hlt : t.size < t'.size) (hfilled : Filled P t' t'' t.size) : Grown P t t'' parent where
  wellFormed := hfilled.wellFormed
  ext := hgrown.ext.trans hfilled.ext
  children q hq := by
    rw [hfilled.children q (Nat.lt_trans hq hlt) (Nat.ne_of_lt hq), hgrown.children q hq]
  keeps := hfilled.keeps

/-- A child comes in, and then the ones behind it. -/
theorem Filled.cons {parent : Nat} (hgrown : Grown P t t' (some parent))
    (hfilled : Filled P t' t'' parent) : Filled P t t'' parent where
  wellFormed := hfilled.wellFormed
  ext := hgrown.ext.trans hfilled.ext
  children q hq hne := by
    rw [hfilled.children q (Nat.lt_of_lt_of_le hq hgrown.ext.size_le) hne, hgrown.children q hq,
      if_neg fun heq => hne (Option.some.inj heq).symm, List.append_nil]
  keeps := hfilled.keeps

/-- The view that was added last has no children yet. -/
theorem WellFormed.children_last (ht : t.WellFormed) {v : View} (hv : t.Admits v.parent) :
    (t.push v).children t.size = [] := by
  rw [children_push, ht.children_size, if_neg, List.append_nil]
  rintro hparent
  rcases hv with ⟨hnone, -⟩ | ⟨p, hp, hlt, -⟩
  · cases hnone.symm.trans hparent
  · cases hp.symm.trans hparent
    exact Nat.lt_irrefl _ hlt

end

section

variable {config : Config} {heads : List ViewHead} {P : ViewTree → Prop}

theorem KeptByEntering.grown (hP : KeptByEntering heads P) (ht : t.WellFormed) {head : ViewHead}
    {v : View} (hhead : head ∈ heads) (hv : t.Enters head v) (hp : P t) :
    Grown P t (t.push v) v.parent where
  wellFormed := ht.push hv.admits
  ext := extends_push t v
  children q _ := children_push t v q
  keeps := hP ht hhead hv hp

/-- A view that is no unit comes in first, and then its children. -/
theorem KeptByEntering.inner_grown (hP : KeptByEntering heads P) (ht : t.WellFormed)
    {head : ViewHead} {v : View} {t' : ViewTree} (hhead : head ∈ heads) (hv : t.Enters head v)
    (hunit : v.unit? = none) (hp : P t)
    (h : (t.push v).WellFormed → t.size < (t.push v).size → (t.push v).unit? t.size = none →
      (t.push v).roleOf t.size = (if v.isConcat then .concat else .layer) →
      ((t.push v).children t.size).length = 0 → P (t.push v) → Filled P (t.push v) t' t.size) :
    Grown P t t' v.parent := by
  have hview : (t.push v).view? t.size = some v := by rw [view?_push, if_pos rfl]
  have hchildren := ht.children_last hv.admits
  have hgrown := hP.grown ht hhead hv hp
  have hlt : t.size < (t.push v).size := by simp [size_push]
  exact hgrown.filled hlt (h hgrown.wellFormed hlt (by simp [ViewTree.unit?, hview, hunit])
    (by simp [roleOf, hview]) (by rw [hchildren, List.length_nil]) hgrown.keeps)

mutual

theorem addView_grown (hP : KeptByEntering heads P) : ∀ {spec : ChartSpec} {t t' : ViewTree}
    {parent : Option Nat} {name : String} {shared : Encoding}, spec.heads ⊆ heads →
    t.WellFormed → t.Admits parent → name = t.givenName parent spec.name? → P t →
    (addView config t parent name shared spec).outcome = .ok t' → Grown P t t' parent
  | .unit head size spec, t, t', parent, name, shared, hsub, ht, hparent, hname, hp, h => by
    rw [addView] at h
    obtain ⟨u, rfl, hscaled⟩ := scaled_of_addUnit ht hparent h
    refine hP.grown ht (hsub (ChartSpec.head_mem_heads _)) ⟨hparent, hname, rfl, ?_⟩ hp
    rintro u' ⟨⟩
    exact hscaled
  | .layer head size encoding children, t, t', parent, name, shared, hsub, ht, hparent, hname, hp,
      h => by
    rw [addView] at h
    have hhead : head ∈ heads := hsub (ChartSpec.head_mem_heads _)
    rw [ChartSpec.heads, List.cons_subset] at hsub
    refine hP.inner_grown ht hhead (v := ⟨name, parent, head.data, head.transforms, size, .layer⟩)
      ⟨hparent, hname, rfl, nofun⟩ rfl hp fun hwf hlt hunit hrole hindex hp' => ?_
    exact addChildren_filled hP hsub.2 hwf hlt hunit hrole hindex hp' h
  | .concat head children, t, t', parent, name, shared, hsub, ht, hparent, hname, hp, h => by
    rw [addView] at h
    have hhead : head ∈ heads := hsub (ChartSpec.head_mem_heads _)
    rw [ChartSpec.heads, List.cons_subset] at hsub
    refine hP.inner_grown ht hhead
      (v := ⟨name, parent, head.data, head.transforms, .unset, .concat⟩)
      ⟨hparent, hname, rfl, nofun⟩ rfl hp fun hwf hlt hunit hrole hindex hp' => ?_
    exact addChildren_filled hP hsub.2 hwf hlt hunit hrole hindex hp' h

theorem addChildren_filled (hP : KeptByEntering heads P) : ∀ {children : List ChartSpec}
    {t t' : ViewTree} {parent : Nat} {role : Role} {index : Nat} {shared : Encoding},
    ChartSpec.headsOfAll children ⊆ heads → t.WellFormed → parent < t.size →
    t.unit? parent = none → t.roleOf parent = role → (t.children parent).length = index → P t →
    (addChildren config t parent role index shared children).outcome = .ok t' →
    Filled P t t' parent
  | [], t, t', parent, role, index, shared, _, ht, _, _, _, _, hp, h => by
    rw [addChildren] at h
    cases h
    exact ⟨ht, .refl t, fun _ _ _ => rfl, hp⟩
  | child :: rest, t, t', parent, role, index, shared, hsub, ht, hlt, hunit, hrole, hindex, hp,
      h => by
    rw [addChildren] at h
    rw [ChartSpec.headsOfAll, List.append_subset] at hsub
    obtain ⟨t1, h1, h⟩ := CompileM.outcome_bind.1 h
    have hgrown := addView_grown hP hsub.1 ht (Or.inr ⟨parent, rfl, hlt, hunit⟩)
      (by rw [givenName, hrole, hindex]) hp h1
    have hindex' : (t1.children parent).length = index + 1 := by
      rw [hgrown.children parent hlt, if_pos rfl, List.length_append, hindex, List.length_singleton]
    have hrole' : t1.roleOf parent = role := by
      rw [roleOf, hgrown.ext.view? hlt, ← hrole, roleOf]
    have hfilled := addChildren_filled hP hsub.2 hgrown.wellFormed
      (Nat.lt_of_lt_of_le hlt hgrown.ext.size_le) ((hgrown.ext.unit? hlt).trans hunit) hrole' hindex'
      hgrown.keeps h
    exact .cons hgrown hfilled

end

end

/-- What every view keeps that comes into a tree holds of the tree of a chart. -/
theorem ofChart_enters {chart : ChartSpec} {config : Config} {P : ViewTree → Prop}
    (hP : KeptByEntering chart.heads P) (hempty : P .empty)
    (h : (ofChart chart config).outcome = .ok t) : P t :=
  (addView_grown hP (List.Subset.refl _) .empty (Or.inl ⟨rfl, rfl⟩) rfl hempty h).keeps

/-- The data in the tree of a chart are those of its views. -/
theorem ofChart_data {chart : ChartSpec} {config : Config} {P : DataSource → Prop}
    (hdata : ∀ head ∈ chart.heads, ∀ data ∈ head.data, P data)
    (h : (ofChart chart config).outcome = .ok t) {id : Nat} {v : View} {data : DataSource}
    (hv : t.view? id = some v) (hd : v.data = some data) : P data := by
  refine ofChart_enters (P := fun t => ∀ id v data, t.view? id = some v → v.data = some data →
    P data) ?_ ?_ h id v data hv hd
  · intro t head w _ hhead hw hall id v data hv hd
    rw [view?_push] at hv
    split at hv
    · cases hv
      exact hdata head hhead data (hw.data ▸ hd)
    · exact hall id v data hv hd
  · intro id v data hv
    cases hv

/-- The units of a chart have their scales. -/
theorem ofChart_scaled {chart : ChartSpec} {config : Config}
    (h : (ofChart chart config).outcome = .ok t) {id : Nat} {u : UnitView}
    (hu : t.unit? id = some u) : u.Scaled (t.scaleName id) := by
  refine ofChart_enters (P := fun t => ∀ id u, t.unit? id = some u → u.Scaled (t.scaleName id))
    ?_ ?_ h id u hu
  · intro t head v ht _ hv hscaled id u hu
    rw [unit?_push] at hu
    split at hu
    · next hid => exact hid ▸ hv.scaled u hu
    · have hid := lt_size_of_unit? hu
      intro c
      rw [← (extends_push t v).sameFrames.scaleName ht (ht.push hv.admits) hid]
      exact hscaled id u hu c
  · intro id u hu
    cases hu

/-! ## Names by places -/

/-- The root has no name, and every other view is named after its place. -/
structure Placed (t : ViewTree) : Prop where
  top : ∀ id, t.parent? id = none → t.viewName id = ""
  child : ∀ (p k id : Nat), (t.children p)[k]? = some id →
    t.viewName id = t.nameOf p ((t.roleOf p).name ++ "_" ++ toString k)

theorem viewName_push (t : ViewTree) (v : View) (id : Nat) :
    (t.push v).viewName id = if id = t.size then v.name else t.viewName id := by
  unfold viewName
  rw [view?_push]
  split <;> rfl

/-- A view that is named after its place leaves the others where they are. -/
theorem Placed.push (ht : t.WellFormed) (h : t.Placed) {v : View} (hadmits : t.Admits v.parent)
    (hname : v.name = t.givenName v.parent none) : (t.push v).Placed := by
  constructor
  · intro id hid
    rw [parent?_push] at hid
    rw [viewName_push]
    split at hid
    · next hlast => rw [if_pos hlast, hname, hid]; rfl
    · next hlast => rw [if_neg hlast, h.top id hid]
  · intro p k id hid
    have hp : p < t.size := by
      have hparent := mem_children.1 (List.mem_of_getElem? hid)
      rw [parent?_push] at hparent
      split at hparent
      · rcases hadmits with ⟨hnone, -⟩ | ⟨q, hq, hlt, -⟩
        · cases hnone.symm.trans hparent
        · cases hq.symm.trans hparent
          exact hlt
      · exact Nat.lt_trans (ht.parent_lt hparent) (lt_size_of_parent? hparent)
    have hrole : (t.push v).roleOf p = t.roleOf p := by
      rw [roleOf, (extends_push t v).view? hp, roleOf]
    rw [nameOf_eq, hrole, viewName_push, viewName_push, if_neg (Nat.ne_of_lt hp)]
    rw [children_push] at hid
    rcases Nat.lt_or_ge k (t.children p).length with hk | hk
    · rw [List.getElem?_append_left hk] at hid
      have hlt := lt_size_of_parent? (mem_children.1 (List.mem_of_getElem? hid))
      rw [if_neg (Nat.ne_of_lt hlt), h.child p k id hid, nameOf_eq]
    · rw [List.getElem?_append_right hk] at hid
      split at hid
      · next hparent =>
        rw [List.getElem?_singleton] at hid
        split at hid
        · next hzero =>
          cases hid
          have hlast : k = (t.children p).length := by omega
          rw [if_pos rfl, hname, hparent, hlast, givenName, childName, nameOf_eq]
        · cases hid
      · cases hid

/-- The tree of a chart that names no view. -/
theorem ofChart_placed {chart : ChartSpec} {config : Config} (hnames : chart.Unnamed)
    (h : (ofChart chart config).outcome = .ok t) : t.Placed := by
  have hall := ofChart_enters (P := fun t => t.WellFormed ∧ t.Placed)
    ?_ ⟨.empty, ?_⟩ h
  · exact hall.2
  · intro t head v ht hhead hv hplaced
    have hname := hv.name
    rw [hnames head hhead] at hname
    exact ⟨ht.push hv.admits, hplaced.2.push ht hv.admits hname⟩
  · refine ⟨fun _ _ => rfl, fun p k id hid => ?_⟩
    cases hid

theorem isName_viewName (hw : t.Wired) (id : Nat) : Text.IsName (t.viewName id) := by
  unfold viewName
  cases hv : t.view? id with
  | none => exact Text.isName_empty
  | some v => exact hw.names id v hv

/-- Every view but the root is some child of another one. -/
theorem WellFormed.exists_child (ht : t.WellFormed) {id : Nat} (hid : id < t.size)
    (hpos : root < id) :
    ∃ p k : Nat, p < id ∧ (t.children p)[k]? = some id := by
  obtain ⟨p, hlt, hp, -⟩ := ht.stands_in hpos hid
  obtain ⟨k, hk⟩ := List.mem_iff_getElem?.1 (mem_children.2 hp)
  exact ⟨p, k, hlt, hk⟩

theorem Role.isName_name (r : Role) : Text.IsName r.name := by cases r <;> decide

theorem Role.underscore_not_mem_name (r : Role) : '_' ∉ r.name.toList := by cases r <;> decide

theorem Role.isDigit_head (r : Role) : ∀ c ∈ r.name.toList.head?, c.isDigit = false := by
  have hall : r.name.toList.head?.all (fun c => !c.isDigit) = true := by cases r <;> decide
  intro c hc
  simpa using (Option.all_eq_true _ _).1 hall c hc

/-- Views that are named after their places are named differently. A name falls into that of the
view around it, and the place in there. -/
theorem Placed.viewName_inj (ht : t.WellFormed) (hw : t.Wired) (h : t.Placed) :
    ∀ {i j : Nat}, i < t.size → j < t.size → t.viewName i = t.viewName j → i = j := by
  have hchild : ∀ {i}, i < t.size → root < i → t.viewName i ≠ "" := by
    intro i hi hpos heq
    obtain ⟨p, k, -, hk⟩ := ht.exists_child hi hpos
    rw [h.child p k i hk, nameOf_eq, Text.IsName.nameWithin_append (isName_viewName hw p)
      (Role.isName_name _)] at heq
    simp [String.append_eq_empty_iff] at heq
  intro i
  induction i using Nat.strongRecOn with
  | ind i ih =>
    intro j hi hj heq
    rcases Nat.eq_zero_or_pos i with rfl | hipos <;> rcases Nat.eq_zero_or_pos j with rfl | hjpos
    · rfl
    · exact absurd (heq.symm.trans (h.top root ht.root_top)) (hchild hj hjpos)
    · exact absurd (heq.trans (h.top root ht.root_top)) (hchild hi hipos)
    · obtain ⟨p, k, hlt, hk⟩ := ht.exists_child hi hipos
      obtain ⟨q, l, hlt', hl⟩ := ht.exists_child hj hjpos
      rw [h.child p k i hk, h.child q l j hl, nameOf_eq, nameOf_eq,
        Text.nameWithin_numbered_inj (isName_viewName hw p) (isName_viewName hw q)
          (Role.isName_name _) (Role.isName_name _) (Role.underscore_not_mem_name _)
          (Role.underscore_not_mem_name _)] at heq
      obtain rfl : p = q := ih p hlt (Nat.lt_trans hlt hi) (Nat.lt_trans hlt' hj) heq.1
      obtain rfl : k = l := heq.2.2
      exact Option.some.inj (hk.symm.trans hl)

/-- Names that tell places have no other letters than those of the roles. -/
theorem Placed.notMem_viewName (ht : t.WellFormed) (hw : t.Wired) (h : t.Placed) {c : Char}
    (hrole : ∀ r : Role, c ∉ r.name.toList) (hc : c ≠ '_') (hdigit : c.isDigit = false) :
    ∀ {id : Nat}, id < t.size → c ∉ (t.viewName id).toList := by
  intro id
  induction id using Nat.strongRecOn with
  | ind id ih =>
    intro hid
    rcases Nat.eq_zero_or_pos id with rfl | hpos
    · have htop : t.viewName 0 = "" := h.top root ht.root_top
      simp [htop]
    · obtain ⟨p, k, hlt, hk⟩ := ht.exists_child hid hpos
      have hp := ih p hlt (Nat.lt_trans hlt hid)
      have hnumber : c ∉ (toString k).toList := fun hmem => by
        rw [Text.isDigit_of_mem_toString hmem] at hdigit
        cases hdigit
      have hplace : c ∉ (Text.nameWithin (t.viewName p) (t.roleOf p).name).toList := by
        rw [(isName_viewName hw p).toList_nameWithin (Role.isDigit_head _),
          (Role.isName_name _).replaced_eq, List.mem_append]
        exact not_or.2 ⟨Text.not_mem_scopeFront hc hp, hrole _⟩
      rw [h.child p k id hk, nameOf_eq, (isName_viewName hw p).nameWithin_append
        (Role.isName_name _), Text.replaced_toString]
      simp only [String.toList_append, List.mem_append]
      exact not_or.2 ⟨not_or.2 ⟨hplace, by simpa using hc⟩, hnumber⟩

theorem Placed.nodup_names (ht : t.WellFormed) (hw : t.Wired) (h : t.Placed) :
    (t.views.toList.map View.name).Nodup := by
  have hname : ∀ {i}, i < t.size → (t.views.toList.map View.name)[i]? = some (t.viewName i) := by
    intro i hi
    rw [List.getElem?_map, Array.getElem?_toList, Array.getElem?_eq_getElem hi, viewName, view?,
      Array.getElem?_eq_getElem hi]
    rfl
  rw [List.nodup_iff_getElem?_ne_getElem?]
  intro i j hij hj heq
  rw [List.length_map] at hj
  rw [hname (Nat.lt_trans hij hj), hname hj] at heq
  exact Nat.ne_of_lt hij (h.viewName_inj ht hw (Nat.lt_trans hij hj) hj (Option.some.inj heq))

end ViewTree

end ChartCompiler
