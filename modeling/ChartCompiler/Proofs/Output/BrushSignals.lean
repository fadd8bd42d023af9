import ChartCompiler.Channel
import ChartCompiler.Output.Mark

/-!
# Signals that the marks of a brush refer to

A written value refers to a signal by a member `signal`, whose value is an expression; the only other
expressions in a mark are tests. In both marks of a brush only the four edges hold any: an edge
follows an end of the extent along its channel, or it spans the view and refers to no signal. Nothing
that the style of a brush sets is a reference.

Results:

* `BrushEdges.exists_edge`: what each edge refers to.
* `BrushEdges.mem_signals_encode`, `BrushEdges.mem_tests_encode`: what the edges together refer to,
  and the test that they are under.
* `OutputMark.textsUnder_brushBackground`, `OutputMark.textsUnder_brushForeground`: a mark of a brush
  holds the expressions of its edges.
-/

namespace ChartCompiler

/-! ## Texts in written values -/

namespace Json

mutual

/-- The texts under a key in a written value, at any depth. -/
def textsUnder (key : String) : Json → List String
  | .arr items => textsUnderItems key items
  | .obj members => textsUnderMembers key members
  | _ => []

/-- The texts under a key in the items of an array. -/
def textsUnderItems (key : String) : List Json → List String
  | [] => []
  | j :: rest => textsUnder key j ++ textsUnderItems key rest

/-- The texts under a key in the members of an object. -/
def textsUnderMembers (key : String) : List (String × Json) → List String
  | [] => []
  | (k, .str text) :: rest => (if k = key then [text] else []) ++ textsUnderMembers key rest
  | (_, value) :: rest => textsUnder key value ++ textsUnderMembers key rest

end

/-- The expressions by which a written value refers to signals. -/
def signals (j : Json) : List String := j.textsUnder "signal"

/-- The expressions on which parts of a written value depend. -/
def tests (j : Json) : List String := j.textsUnder "test"

variable {key : String}

theorem textsUnderItems_eq_nil {items : List Json} (h : ∀ j ∈ items, j.textsUnder key = []) :
    textsUnderItems key items = [] := by
  induction items with
  | nil => rfl
  | cons j rest ih =>
    rw [textsUnderItems, h j List.mem_cons_self, List.nil_append]
    exact ih fun j' hj' => h j' (List.mem_cons_of_mem _ hj')

theorem textsUnderMembers_append (front back : List (String × Json)) :
    textsUnderMembers key (front ++ back) =
      textsUnderMembers key front ++ textsUnderMembers key back := by
  induction front with
  | nil => rfl
  | cons member rest ih =>
    obtain ⟨k, value⟩ := member
    cases value <;> simp [textsUnderMembers, ih]

theorem textsUnderMembers_eq_nil {members : List (String × Json)}
    (h : ∀ member ∈ members, textsUnderMembers key [member] = []) :
    textsUnderMembers key members = [] := by
  induction members with
  | nil => rfl
  | cons member rest ih =>
    rw [← List.singleton_append, textsUnderMembers_append, h member List.mem_cons_self,
      ih fun m hm => h m (List.mem_cons_of_mem _ hm), List.append_nil]

end Json

open Json (textsUnder textsUnderItems textsUnderMembers)

/-! ## Edges -/

namespace BrushEdges

/-- The edges of a brush, each with its key, its channel and the end of the extent that it may
follow. -/
def sides : List (String × Channel × Nat) :=
  [("x", .x, 0), ("y", .y, 0), ("x2", .x, 1), ("y2", .y, 1)]

/-- Whether the edges along a channel follow an extent. -/
def follows (b : BrushEdges) : Channel → Bool
  | .x => b.followsX
  | .y => b.followsY
  | _ => false

/-- The end of an extent along a channel. -/
def endExpr (b : BrushEdges) (c : Channel) (i : Nat) : String :=
  b.selection ++ "_" ++ c.name ++ "[" ++ toString i ++ "]"

variable {key : String}

theorem signals_guarded (b : BrushEdges) (rule : List (String × Json)) :
    (b.guarded rule).signals = textsUnderMembers "signal" rule := by
  unfold guarded Json.signals
  cases b.test <;> simp [textsUnder, textsUnderItems, textsUnderMembers]

theorem tests_guarded (b : BrushEdges) (rule : List (String × Json)) :
    (b.guarded rule).tests = b.test.toList ++ textsUnderMembers "test" rule := by
  unfold guarded Json.tests
  cases b.test <;> simp [textsUnder, textsUnderItems, textsUnderMembers]

/-- An edge refers to the end of the extent along its channel if it follows that, and to no signal
else. -/
theorem guarded_edge (b : BrushEdges) (c : Channel) (i : Nat) {fallback : String × Json}
    (htest : textsUnderMembers "test" [fallback] = [])
    (hsignal : textsUnderMembers "signal" [fallback] = []) :
    let edge := b.guarded (b.edge (b.follows c) c.name i fallback)
    edge.tests = b.test.toList ∧
      edge.signals = if b.follows c then [b.endExpr c i] else [] := by
  dsimp only
  rw [tests_guarded, signals_guarded, edge]
  cases b.follows c with
  | true => simp [textsUnderMembers, endExpr]
  | false => simp [htest, hsignal]

/-- Every side has an edge. -/
theorem exists_edge (b : BrushEdges) {c : Channel} {i : Nat} (h : (key, c, i) ∈ sides) :
    ∃ edge, b.encode.get? key = some edge ∧ edge.tests = b.test.toList ∧
      edge.signals = if b.follows c then [b.endExpr c i] else [] := by
  simp only [sides, List.mem_cons, Prod.mk.injEq, List.not_mem_nil, or_false] at h
  obtain ⟨rfl, rfl, rfl⟩ | ⟨rfl, rfl, rfl⟩ | ⟨rfl, rfl, rfl⟩ | ⟨rfl, rfl, rfl⟩ := h
  · exact ⟨_, rfl, b.guarded_edge .x 0 rfl rfl⟩
  · exact ⟨_, rfl, b.guarded_edge .y 0 rfl rfl⟩
  · exact ⟨_, rfl, b.guarded_edge .x 1 rfl rfl⟩
  · exact ⟨_, rfl, b.guarded_edge .y 1 rfl rfl⟩

/-- The expressions of the edges are those of each of them. -/
theorem mem_textsUnder_encode (b : BrushEdges) {text : String} :
    text ∈ b.encode.textsUnder key ↔
      ∃ side ∈ sides, ∃ edge, b.encode.get? side.1 = some edge ∧ text ∈ edge.textsUnder key := by
  have hguarded : ∀ k rule rest, textsUnderMembers key ((k, b.guarded rule) :: rest) =
      (b.guarded rule).textsUnder key ++ textsUnderMembers key rest := by
    intro k rule rest
    unfold guarded
    split <;> rfl
  unfold encode
  simp only [textsUnder, hguarded]
  simp [sides, textsUnderMembers, Json.get?, List.lookup_cons]

/-- The edges refer to the ends of the extents that they follow. -/
theorem mem_signals_encode (b : BrushEdges) {text : String} :
    text ∈ b.encode.signals ↔ ∃ side ∈ sides,
      b.follows side.2.1 = true ∧ text = b.endExpr side.2.1 side.2.2 := by
  rw [Json.signals, mem_textsUnder_encode]
  refine exists_congr fun ⟨key, c, i⟩ => and_congr_right fun hside => ?_
  obtain ⟨edge, hedge, -, hsignals⟩ := b.exists_edge hside
  simp only [hedge, Option.some.injEq, exists_eq_left']
  rw [← Json.signals, hsignals]
  split <;> simp [*]

/-- The edges are under one test at most. -/
theorem mem_tests_encode (b : BrushEdges) {text : String} :
    text ∈ b.encode.tests ↔ b.test = some text := by
  rw [Json.tests, mem_textsUnder_encode]
  constructor
  · rintro ⟨⟨key, c, i⟩, hside, edge, hedge, htext⟩
    obtain ⟨edge', hedge', htests, -⟩ := b.exists_edge hside
    obtain rfl := Option.some.inj (hedge.symm.trans hedge')
    rw [← Json.tests, htests] at htext
    exact Option.mem_toList.1 htext
  · intro htest
    have hside : ("x", Channel.x, 0) ∈ sides := by decide
    obtain ⟨edge, hedge, htests, -⟩ := b.exists_edge hside
    refine ⟨_, hside, edge, hedge, ?_⟩
    rw [← Json.tests, htests]
    exact Option.mem_toList.2 htest

end BrushEdges

/-! ## Marks -/

namespace OutputMark

/-- The edge of a mark under a key. -/
def edge? (m : OutputMark) (key : String) : Option Json :=
  ((m.encode.get? "encode").bind fun j => j.get? "update").bind fun j => j.get? key

theorem edge?_brushBackground (name : String) (brush : Brush) (edges : BrushEdges) (key : String) :
    (brushBackground name brush edges).edge? key = edges.encode.get? key := rfl

theorem edge?_brushForeground (name : String) (brush : Brush) (edges : BrushEdges) (key : String) :
    (brushForeground name brush edges).edge? key = edges.encode.get? key := rfl

/-- The keys of expressions in marks. -/
def exprKeys : List String := ["signal", "test"]

variable {key : String}

/-- A fixed value holds no expressions but those within it. -/
theorem textsUnder_fixed (hkey : key ∈ exprKeys) (k : String) {j : Json}
    (h : j.textsUnder key = []) : textsUnderMembers key [(k, fixed j)] = [] := by
  have hvalue : "value" ≠ key := by rintro rfl; exact absurd hkey (by decide)
  unfold fixed
  cases j <;> simp_all [textsUnder, textsUnderMembers]

theorem textsUnder_ofOption {α : Type} (o : Option α) {f : α → Json}
    (hf : ∀ a, (f a).textsUnder key = []) : (Json.ofOption o f).textsUnder key = [] := by
  cases o with
  | none => rfl
  | some a => exact hf a

/-- What the stroke of a brush sets holds no expressions. -/
theorem textsUnder_stroke (hkey : key ∈ exprKeys) (brush : Brush) {member : String × Json}
    (h : some member ∈ strokeMembers brush) : textsUnderMembers key [member] = [] := by
  have hset : ∀ {α : Type} {k : String} {o : Option α} {f : α → Json},
      (∀ a, (f a).textsUnder key = []) →
      some member = Json.whenSet k o (fun a => fixed (f a)) →
      textsUnderMembers key [member] = [] := by
    intro α k o f hf hmember
    obtain ⟨a, -, rfl⟩ := Option.map_eq_some_iff.1 hmember.symm
    exact textsUnder_fixed hkey k (hf a)
  have hnumbers : ∀ xs : List Binary64, (Json.arr (xs.map .float)).textsUnder key = [] := by
    intro xs
    rw [textsUnder]
    refine Json.textsUnderItems_eq_nil fun j hj => ?_
    obtain ⟨x, -, rfl⟩ := List.mem_map.1 hj
    rfl
  simp only [strokeMembers, List.mem_cons, List.not_mem_nil, or_false] at h
  obtain h | h | h | h | h := h
  · exact hset (fun _ => rfl) h
  · exact hset (fun _ => rfl) h
  · exact hset hnumbers h
  · exact hset (fun _ => rfl) h
  · exact hset (fun _ => rfl) h

/-- The rectangle of a brush holds the expressions of its edges, if there are none in the style with
which it enters. -/
theorem textsUnder_brushRect (hkey : key ∈ exprKeys) (name : String) (edges : BrushEdges)
    {enter : List (String × Json)} (h : textsUnderMembers key enter = []) :
    (brushRect name (.obj enter) edges).textsUnder key = edges.encode.textsUnder key := by
  simp only [exprKeys, List.mem_cons, List.not_mem_nil, or_false] at hkey
  unfold brushRect BrushEdges.encode
  obtain rfl | rfl := hkey
  all_goals simp [textsUnder, textsUnderMembers, h]

theorem textsUnder_brushBackground (hkey : key ∈ exprKeys) (name : String) (brush : Brush)
    (edges : BrushEdges) :
    (brushBackground name brush edges).encode.textsUnder key = edges.encode.textsUnder key := by
  refine textsUnder_brushRect hkey name edges (Json.textsUnderMembers_eq_nil ?_)
  simp only [List.mem_cons, List.not_mem_nil, or_false]
  rintro member (rfl | rfl)
  · exact textsUnder_fixed hkey _ (textsUnder_ofOption brush.fill fun _ => rfl)
  · exact textsUnder_fixed hkey _ (textsUnder_ofOption brush.fillOpacity fun _ => rfl)

theorem textsUnder_brushForeground (hkey : key ∈ exprKeys) (name : String) (brush : Brush)
    (edges : BrushEdges) :
    (brushForeground name brush edges).encode.textsUnder key = edges.encode.textsUnder key := by
  refine textsUnder_brushRect hkey name edges (Json.textsUnderMembers_eq_nil fun member hmember => ?_)
  obtain ⟨o, ho, rfl⟩ := List.mem_filterMap.1 hmember
  obtain hfill | hstroke := List.mem_cons.1 ho
  · obtain rfl := Option.some.inj hfill
    exact textsUnder_fixed hkey _ rfl
  · exact textsUnder_stroke hkey brush hstroke

end OutputMark

end ChartCompiler
